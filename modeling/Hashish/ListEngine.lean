import Hashish.BucketArray

/-!
# The list engines (`hi_list.c`)

Chained buckets, with and without move-to-front, with and without a second hash
value per object. The traversals of the source differ in the test they make on
an object and in what they do with the object they find; the walk itself is
`seek`, which keeps the trailing pointer `p` of the source.

A chain is walked with a bound on the number of steps, which a walk that meets
no object twice does not reach.
-/

namespace Hashish

open Hashish.Lib

variable {δ : Type}

/-! ## Walks -/

/-- The walk `for (p = b_obj; b_obj; b_obj = b_obj->next)` up to the first object that passes the
test: the trailing pointer and the object. -/
def seek (objs : Heap (HiBucketHlObj δ)) (hit : HiBucketHlObj δ → Bool) :
    Nat → Option Ptr → Option Ptr → Prog (Option (Option Ptr × Ptr))
  | 0, _, _ => Prog.fault .nontermination
  | _ + 1, _, none => pure none
  | fuel + 1, p, some bObj => do
    let obj ← deref objs (some bObj)
    if hit obj then pure (some (p, bObj)) else seek objs hit fuel (some bObj) obj.next

/-- `key_cmp(key, b_obj->key) == 0`. -/
def HiHandle.keyHit (h : HiHandle δ) (key : Bytes) (obj : HiBucketHlObj δ) : Bool :=
  h.keyCmp key obj.key.cells = 0

/-- The test of the engines with a second hash. -/
def HiHandle.hashHit (h : HiHandle δ) (key : Bytes) (keyHash : UInt32) (obj : HiBucketHlObj δ) :
    Bool :=
  keyHash = obj.keyHash && h.keyHit key obj

/-- The test of `lhi_get_list` for `COLL_ENG_LIST_MTF_HASH`: the hash values must differ. -/
def HiHandle.hashMissHit (h : HiHandle δ) (key : Bytes) (keyHash : UInt32)
    (obj : HiBucketHlObj δ) : Bool :=
  keyHash ≠ obj.keyHash && h.keyHit key obj

/-- Walk the chain of a bucket. -/
def HiHandle.seekBucket (h : HiHandle δ) (bucket : Nat) (hit : HiBucketHlObj δ → Bool) :
    Prog (Option (Option Ptr × Ptr)) := do
  let bObj ← h.bucketTable.load bucket
  let fuel ← walkBound
  seek h.objs hit fuel bObj bObj

/-! ## Lookup -/

/-- `lhi_lookup_list`. -/
def lhiLookupList (h : HiHandle δ) (key : Bytes) (keylen : UInt32) : Prog Int := do
  let bucket ← h.bucketOf key keylen
  match h.collEng with
  | .list | .listMtf => do
    match ← h.seekBucket bucket (h.keyHit key) with
    | some _ => pure success
    | none => pure hiErrNokey
  | .listHash | .listMtfHash => do
    let keyHash ← h.hash2 key keylen
    match ← h.seekBucket bucket (h.hashHit key keyHash) with
    | some _ => pure success
    | none => pure hiErrNokey
  | _ => pure hiErrNokey

/-! ## Removal -/

/-- Take the object out of its chain: `p` is the object before it, or the object itself when it
is the first one. -/
def HiHandle.unlinkObj (h : HiHandle δ) (bucket : Nat) (p : Option Ptr) (bObj : Ptr)
    (next : Option Ptr) : Prog (HiHandle δ) :=
  if p = some bObj then do
    let table ← h.bucketTable.store bucket next
    pure { h with bucketTable := table }
  else do
    let objs ← assign h.objs p fun o => { o with next := next }
    pure { h with objs := objs }

/-- Walk the chain of a bucket, and remove the object that is found. -/
def HiHandle.removeHit (h : HiHandle δ) (bucket : Nat) (hit : HiBucketHlObj δ → Bool) :
    Prog (Result δ × HiHandle δ) := do
  match ← h.seekBucket bucket hit with
  | none => do
    lhiPthreadMutexUnlock h.mutexLock
    pure (⟨hiErrNokey, none⟩, h)
  | some (p, bObj) => do
    let obj ← deref h.objs (some bObj)
    let h ← h.unlinkObj bucket p bObj obj.next
    free obj.key.addr
    free (some bObj)
    let size ← h.bucketSize.load bucket
    let sizes ← h.bucketSize.store bucket (size - 1)
    lhiPthreadMutexUnlock h.mutexLock
    pure (⟨success, some obj.data⟩, { h with
      objs := h.objs.set bObj none
      bucketSize := sizes
      noObjects := h.noObjects - 1 })

/-- `lhi_remove_list`. -/
def lhiRemoveList (h : HiHandle δ) (key : Bytes) (keylen : UInt32) :
    Prog (Result δ × HiHandle δ) := do
  lhiPthreadMutexLock h.mutexLock
  let bucket ← h.bucketOf key keylen
  match h.collEng with
  | .list | .listMtf => h.removeHit bucket (h.keyHit key)
  | .listHash | .listMtfHash => do
    let keyHash ← h.hash2 key keylen
    h.removeHit bucket (h.hashHit key keyHash)
  | _ => do
    lhiPthreadMutexUnlock h.mutexLock
    pure (⟨hiErrInternal, none⟩, h)

/-! ## Retrieval -/

/-- Walk the chain of a bucket, and return the data of the object that is found. -/
def HiHandle.getHit (h : HiHandle δ) (bucket : Nat) (hit : HiBucketHlObj δ → Bool) :
    Prog (Result δ) := do
  match ← h.seekBucket bucket hit with
  | none => do
    lhiPthreadMutexUnlock h.mutexLock
    pure ⟨hiErrNokey, none⟩
  | some (_, bObj) => do
    let obj ← deref h.objs (some bObj)
    lhiPthreadMutexUnlock h.mutexLock
    pure ⟨success, some obj.data⟩

/-- Put the object at the front of its chain: `p` is the object before it. -/
def HiHandle.moveToFront (h : HiHandle δ) (bucket : Nat) (p : Option Ptr) (bObj : Ptr)
    (next : Option Ptr) : Prog (HiHandle δ) := do
  let objs ← assign h.objs p fun o => { o with next := next }
  let head ← h.bucketTable.load bucket
  let objs ← assign objs (some bObj) fun o => { o with next := head }
  let table ← h.bucketTable.store bucket (some bObj)
  pure { h with objs := objs, bucketTable := table }

/-- Walk the chain of a bucket, return the data of the object that is found, and put the object
at the front. -/
def HiHandle.getHitMtf (h : HiHandle δ) (bucket : Nat) (hit : HiBucketHlObj δ → Bool) :
    Prog (Result δ × HiHandle δ) := do
  match ← h.seekBucket bucket hit with
  | none => do
    lhiPthreadMutexUnlock h.mutexLock
    pure (⟨hiErrNokey, none⟩, h)
  | some (p, bObj) => do
    let obj ← deref h.objs (some bObj)
    let h ← if p ≠ some bObj then h.moveToFront bucket p bObj obj.next else pure h
    lhiPthreadMutexUnlock h.mutexLock
    pure (⟨success, some obj.data⟩, h)

/-- `lhi_get_list`. For `COLL_ENG_LIST_MTF` the mutex is not locked, but unlocked at the end. -/
def lhiGetList (h : HiHandle δ) (key : Bytes) (keylen : UInt32) :
    Prog (Result δ × HiHandle δ) := do
  let bucket ← h.bucketOf key keylen
  match h.collEng with
  | .list => do
    lhiPthreadMutexLock h.mutexLock
    let r ← h.getHit bucket (h.keyHit key)
    pure (r, h)
  | .listMtf => h.getHitMtf bucket (h.keyHit key)
  | .listHash => do
    lhiPthreadMutexLock h.mutexLock
    let keyHash ← h.hash2 key keylen
    let r ← h.getHit bucket (h.hashHit key keyHash)
    pure (r, h)
  | .listMtfHash => do
    lhiPthreadMutexLock h.mutexLock
    let keyHash ← h.hash2 key keylen
    h.getHitMtf bucket (h.hashMissHit key keyHash)
  | _ => pure (⟨hiErrInternal, none⟩, h)

/-! ## Insertion -/

/-- `lhi_insert_list`. The field `key_hash` of the new object is not set: it keeps the word that
was in the fresh block. -/
def lhiInsertList (h : HiHandle δ) (key : Bytes) (keylen : UInt32) (data : δ) :
    Prog (Int × HiHandle δ) := do
  lhiPthreadMutexLock h.mutexLock
  let bucket ← h.bucketOf key keylen
  match ← xallocAlign with
  | .error ret => do
    lhiPthreadMutexUnlock h.mutexLock
    pure (ret, h)
  | .ok obj => do
    match ← xallocAlign with
    | .error ret => do
      free (some obj.addr)
      lhiPthreadMutexUnlock h.mutexLock
      pure (ret, h)
    | .ok dupkey => do
      let key ← memcpy dupkey.addr key keylen.toNat
      let next ← h.bucketTable.load bucket
      let table ← h.bucketTable.store bucket (some obj.addr)
      let size ← h.bucketSize.load bucket
      let sizes ← h.bucketSize.store bucket (size + 1)
      lhiPthreadMutexUnlock h.mutexLock
      pure (success, { h with
        objs := h.objs.set obj.addr (some
          { keyLen := keylen, key := key, data := data, next := next, keyHash := obj.junk 0 })
        bucketTable := table
        bucketSize := sizes
        noObjects := h.noObjects + 1 })

/-! ## Snapshots -/

/-- The copy loop of `lhi_list_bucket_to_array`. -/
def copyChain (objs : Heap (HiBucketHlObj δ)) :
    Nat → Option Ptr → Nat → BucketArray δ → Prog (BucketArray δ)
  | 0, _, _, _ => Prog.fault .nontermination
  | _ + 1, none, _, a => pure a
  | fuel + 1, some bObj, i, a => do
    let obj ← deref objs (some bObj)
    let a ← a.put i obj.data obj.key obj.keyLen
    copyChain objs fuel obj.next (i + 1) a

/-- `lhi_list_bucket_to_array`. -/
def lhiListBucketToArray (h : HiHandle δ) (bucket : Nat) (a : BucketArray δ) :
    Prog (Int × BucketArray δ) := do
  if h.tableSize.toNat < bucket then
    pure (hiErrRange, a)
  else do
    lhiPthreadMutexLock h.mutexLock
    let max ← h.bucketSize.load bucket
    if max = 0 then do
      lhiPthreadMutexUnlock h.mutexLock
      pure (hiErrNodata, a)
    else do
      let (ret, a) ← lhiBucketArrayAlloc a max.toNat
      if ret ≠ 0 then do
        lhiPthreadMutexUnlock h.mutexLock
        pure (ret, a)
      else
        match h.collEng with
        | .list | .listMtf | .listHash | .listMtfHash => do
          let bObj ← h.bucketTable.load bucket
          let fuel ← walkBound
          let a ← copyChain h.objs fuel bObj 0 a
          lhiPthreadMutexUnlock h.mutexLock
          pure (0, a)
        | _ => do
          lhiPthreadMutexUnlock h.mutexLock
          pure (hiErrInternal, a)

/-! ## Destruction -/

/-- Release the objects of a chain. -/
def freeChain : Nat → Heap (HiBucketHlObj δ) → Option Ptr → Prog (Heap (HiBucketHlObj δ))
  | 0, _, _ => Prog.fault .nontermination
  | _ + 1, objs, none => pure objs
  | fuel + 1, objs, some v => do
    let obj ← deref objs (some v)
    free obj.key.addr
    free (some v)
    freeChain fuel (objs.set v none) obj.next

/-- `lhi_fini_list`. -/
def lhiFiniList (h : HiHandle δ) : Prog (Int × HiHandle δ) := do
  let fuel ← walkBound
  let objs ← Prog.forUp (fun i objs => do
    let bObj ← h.bucketTable.load i
    freeChain fuel objs bObj) h.tableSize.toNat 0 h.objs
  free h.bucketTable.addr
  pure (success, { h with objs := objs, bucketTable := { h.bucketTable with cells := [] } })

end Hashish
