import Hashish.BucketArray

/-!
# The array engine (`hi_array.c`)

A bucket is an array of slots. A slot is marked as allocated or not, so removals
leave holes; `bucket_array_slot_size` counts the allocated slots of a bucket,
`bucket_array_slot_max` all of them.
-/

namespace Hashish

open Hashish.Lib

variable {δ : Type}

/-! ## Slots -/

/-- Read slot `i` of a bucket. -/
def HiHandle.slot (h : HiHandle δ) (bucket i : Nat) : Prog (HiBucketAObj δ) := do
  let slots ← h.bucketArray.load bucket
  slots.load i

/-- Write slot `i` of a bucket. -/
def HiHandle.setSlot (h : HiHandle δ) (bucket i : Nat) (slot : HiBucketAObj δ) :
    Prog (HiHandle δ) := do
  let slots ← h.bucketArray.load bucket
  let slots ← slots.store i slot
  let array ← h.bucketArray.store bucket slots
  pure { h with bucketArray := array }

/-- Read an indeterminate field. -/
def written {α : Type} (field : Option α) : Prog α :=
  match field with
  | none => Prog.fault .uninitialised
  | some a => pure a

/-- The search loop of `lhi_get_array` and `lhi_remove_array`, with `n` slots to go from slot `i`
on. It ends early when as many allocated slots were seen as there are. -/
def scan (h : HiHandle δ) (bucket : Nat) (slotSize : UInt32) (key : Bytes) :
    Nat → Nat → UInt32 → Prog (Option (Nat × Entry δ))
  | 0, _, _ => pure none
  | n + 1, i, alreadyChecked =>
    if alreadyChecked ≥ slotSize then pure none
    else do
      let slot ← h.slot bucket i
      match ← written slot.allocation with
      | .baNotAllocated => scan h bucket slotSize key n (i + 1) alreadyChecked
      | .baAllocated => do
        let e ← written slot.entry
        if h.keyCmp key e.key.cells = 0 then pure (some (i, e))
        else scan h bucket slotSize key n (i + 1) (alreadyChecked + 1)

/-- Search a bucket. -/
def HiHandle.scanBucket (h : HiHandle δ) (bucket : Nat) (key : Bytes) :
    Prog (Option (Nat × Entry δ)) := do
  let slotMax ← h.bucketArraySlotMax.load bucket
  let slotSize ← h.bucketArraySlotSize.load bucket
  scan h bucket slotSize key slotMax.toNat 0 0

/-! ## Retrieval and removal -/

/-- `lhi_get_array`. -/
def lhiGetArray (h : HiHandle δ) (key : Bytes) (keylen : UInt32) : Prog (Result δ) := do
  let bucket ← h.bucketOf key keylen
  match h.collEng with
  | .array => do
    lhiPthreadMutexLock h.mutexLock
    match ← h.scanBucket bucket key with
    | none => do
      lhiPthreadMutexUnlock h.mutexLock
      pure ⟨hiErrNokey, none⟩
    | some (_, e) => do
      lhiPthreadMutexUnlock h.mutexLock
      pure ⟨success, some e.data⟩
  | .arrayDyn | .arrayDynHash | .arrayHash => pure ⟨hiErrNokey, none⟩
  | _ => pure ⟨hiErrInternal, none⟩

/-- `lhi_remove_array`. -/
def lhiRemoveArray (h : HiHandle δ) (key : Bytes) (keylen : UInt32) :
    Prog (Result δ × HiHandle δ) := do
  let bucket ← h.bucketOf key keylen
  match h.collEng with
  | .array => do
    lhiPthreadMutexLock h.mutexLock
    match ← h.scanBucket bucket key with
    | none => do
      lhiPthreadMutexUnlock h.mutexLock
      pure (⟨hiErrNokey, none⟩, h)
    | some (i, e) => do
      free e.key.addr
      let slot ← h.slot bucket i
      let h ← h.setSlot bucket i { slot with allocation := some .baNotAllocated }
      let slotSize ← h.bucketArraySlotSize.load bucket
      let slotSizes ← h.bucketArraySlotSize.store bucket (slotSize - 1)
      lhiPthreadMutexUnlock h.mutexLock
      pure (⟨success, some e.data⟩, { h with
        bucketArraySlotSize := slotSizes
        noObjects := h.noObjects - 1 })
  | _ => pure (⟨hiErrNokey, none⟩, h)

/-! ## Insertion -/

/-- `realloc` of a bucket to `n` slots: the new slots are indeterminate. -/
def reallocSlots (slots : Block (HiBucketAObj δ)) (n : Nat) :
    Prog (Option (Block (HiBucketAObj δ))) := do
  match ← realloc slots.addr with
  | none => pure none
  | some fresh => pure (some ⟨some fresh.addr,
      slots.cells.take n ++ List.replicate (n - slots.cells.length) ⟨none, none⟩⟩)

/-- Mark the slots from `lo` on, below `hi`, as not allocated. -/
def markFree (cells : List (HiBucketAObj δ)) (lo hi : Nat) : List (HiBucketAObj δ) :=
  cells.mapIdx fun i slot =>
    if lo ≤ i ∧ i < hi then { slot with allocation := some .baNotAllocated } else slot

/-- The first slot that is not allocated, with `n` slots to go from slot `i` on. -/
def firstFree (h : HiHandle δ) (bucket : Nat) : Nat → Nat → Prog (Option Nat)
  | 0, _ => pure none
  | n + 1, i => do
    let slot ← h.slot bucket i
    match ← written slot.allocation with
    | .baNotAllocated => pure (some i)
    | .baAllocated => firstFree h bucket n (i + 1)

/-- Double an exhausted bucket. The second result tells whether the memory was there; the doubled
`slot_max` stays in any case, and without memory the bucket is lost. -/
def HiHandle.growBucket (h : HiHandle δ) (bucket : Nat) : Prog (HiHandle δ × Bool) := do
  let slotSize ← h.bucketArraySlotSize.load bucket
  let oldBucketSize ← h.bucketArraySlotMax.load bucket
  if slotSize ≥ oldBucketSize then do
    let slotMax := oldBucketSize <<< 1
    let slotMaxs ← h.bucketArraySlotMax.store bucket slotMax
    let slots ← h.bucketArray.load bucket
    match ← reallocSlots slots slotMax.toNat with
    | none => do
      let array ← h.bucketArray.store bucket .null
      pure ({ h with bucketArraySlotMax := slotMaxs, bucketArray := array }, false)
    | some slots => do
      let array ← h.bucketArray.store bucket
        { slots with cells := markFree slots.cells oldBucketSize.toNat slotMax.toNat }
      pure ({ h with bucketArraySlotMax := slotMaxs, bucketArray := array }, true)
  else pure (h, true)

/-- The part of `lhi_insert_array` that looks for a free slot and fills it. -/
def HiHandle.fillFreeSlot (h : HiHandle δ) (bucket : Nat) (key : Bytes) (keylen : UInt32) (data : δ) :
    Prog (Int × HiHandle δ) := do
  let slotMax ← h.bucketArraySlotMax.load bucket
  match ← firstFree h bucket slotMax.toNat 0 with
  | none => do
    -- should never happened
    lhiPthreadMutexUnlock h.mutexLock
    pure (hiErrInternal, h)
  | some i => do
    match ← xallocAlign with
    | .error _ => pure (hiErrSystem, h)
    | .ok dupkey => do
      let key ← memcpy dupkey.addr key keylen.toNat
      let h ← h.setSlot bucket i ⟨some ⟨keylen, key, data⟩, some .baAllocated⟩
      let slotSize ← h.bucketArraySlotSize.load bucket
      let slotSizes ← h.bucketArraySlotSize.store bucket (slotSize + 1)
      lhiPthreadMutexUnlock h.mutexLock
      pure (success, { h with
        bucketArraySlotSize := slotSizes
        noObjects := h.noObjects + 1 })

/-- The part of `lhi_insert_array` that holds the mutex, once the key was not found. -/
def lhiInsertArraySlot (h : HiHandle δ) (bucket : Nat) (key : Bytes) (keylen : UInt32) (data : δ) :
    Prog (Int × HiHandle δ) := do
  lhiPthreadMutexLock h.mutexLock
  let (h, grown) ← h.growBucket bucket
  if !grown then do
    lhiPthreadMutexUnlock h.mutexLock
    pure (hiErrSystem, h)
  else h.fillFreeSlot bucket key keylen data

/-- `lhi_insert_array`. -/
def lhiInsertArray (h : HiHandle δ) (key : Bytes) (keylen : UInt32) (data : δ) :
    Prog (Int × HiHandle δ) := do
  let bucket ← h.bucketOf key keylen
  let found ← lhiGetArray h key keylen
  if found.status = success then pure (hiErrDupkey, h)
  else lhiInsertArraySlot h bucket key keylen data

/-! ## Snapshots -/

/-- The copy loop of `lhi_array_bucket_to_array`, with `n` slots to go from slot `i` on. The key
length goes to index `i`, data and key go to index `j`. -/
def copySlots (h : HiHandle δ) (bucket : Nat) :
    Nat → Nat → Nat → BucketArray δ → Prog (BucketArray δ)
  | 0, _, _, a => pure a
  | n + 1, i, j, a => do
    let slot ← h.slot bucket i
    match ← written slot.allocation with
    | .baNotAllocated => copySlots h bucket n (i + 1) j a
    | .baAllocated => do
      let e ← written slot.entry
      let ds ← a.data.store j (some e.data)
      let ks ← a.keys.store j (some e.key)
      let ls ← a.keysLength.store i (some e.keyLen)
      copySlots h bucket n (i + 1) (j + 1) { a with data := ds, keys := ks, keysLength := ls }

/-- `lhi_array_bucket_to_array`. -/
def lhiArrayBucketToArray (h : HiHandle δ) (bucket : Nat) (a : BucketArray δ) :
    Prog (Int × BucketArray δ) := do
  lhiPthreadMutexLock h.mutexLock
  let len ← h.bucketArraySlotSize.load bucket
  if len = 0 then do
    lhiPthreadMutexUnlock h.mutexLock
    pure (hiErrNodata, a)
  else do
    let (ret, a) ← lhiBucketArrayAlloc a len.toNat
    if ret ≠ 0 then do
      lhiPthreadMutexUnlock h.mutexLock
      pure (ret, a)
    else do
      let a ← copySlots h bucket len.toNat 0 0 a
      lhiPthreadMutexUnlock h.mutexLock
      pure (ret, a)

/-! ## Destruction -/

/-- Release the keys of a bucket, with `n` slots to go from slot `i` on. -/
def freeSlots (h : HiHandle δ) (bucket : Nat) : Nat → Nat → Prog Unit
  | 0, _ => pure ()
  | n + 1, i => do
    let slot ← h.slot bucket i
    match ← written slot.allocation with
    | .baNotAllocated => freeSlots h bucket n (i + 1)
    | .baAllocated => do
      let e ← written slot.entry
      free e.key.addr
      freeSlots h bucket n (i + 1)

/-- `lhi_fini_array`. -/
def lhiFiniArray (h : HiHandle δ) : Prog (Int × HiHandle δ) := do
  lhiPthreadMutexLock h.mutexLock
  Prog.forUp (fun i _ => do
    let slotMax ← h.bucketArraySlotMax.load i
    freeSlots h i slotMax.toNat 0
    let slots ← h.bucketArray.load i
    free slots.addr) h.tableSize.toNat 0 ()
  free h.bucketArray.addr
  free h.bucketArraySlotSize.addr
  free h.bucketArraySlotMax.addr
  lhiPthreadMutexUnlock h.mutexLock
  pure (success, { h with
    bucketArray := { h.bucketArray with cells := [] }
    bucketArraySlotSize := { h.bucketArraySlotSize with cells := [] }
    bucketArraySlotMax := { h.bucketArraySlotMax with cells := [] } })

end Hashish
