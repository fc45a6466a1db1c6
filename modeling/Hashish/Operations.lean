import Hashish.Iterator

/-!
# Operations and life cycle (`hi_operations.c`, `lib_init.c`, `lib_fini.c`)

`hi_insert` may call `hi_rehash`, which calls `hi_insert` on a new handle whose
`rehash_auto` is cleared; there the recursion ends. The model unrolls it once:
`hiInsertWith` takes the rehash function as an argument.
-/

namespace Hashish

open Hashish.Lib

variable {δ : Type}

/-! ## Operations -/

/-- `hi_lookup`. -/
def hiLookup (h : HiHandle δ) (key : Bytes) (keylen : UInt32) : Prog Int :=
  match h.collEng with
  | .list | .listHash | .listMtf | .listMtfHash => do
    lhiPthreadMutexLock h.mutexLock
    let ret ← lhiLookupList h key keylen
    lhiPthreadMutexUnlock h.mutexLock
    pure ret
  | .array | .arrayHash | .arrayDyn | .arrayDynHash => pure failure
  | .rbtree => pure failure
  | .unset | .max => pure hiErrInternal

/-- `hi_get`. -/
def hiGet (h : HiHandle δ) (key : Bytes) (keylen : UInt32) : Prog (Result δ × HiHandle δ) :=
  match h.collEng with
  | .list | .listHash | .listMtf | .listMtfHash => lhiGetList h key keylen
  | .rbtree => do
    let r ← lhiGetRbtree h key keylen
    pure (r, h)
  | .array | .arrayHash | .arrayDyn | .arrayDynHash => do
    let r ← lhiGetArray h key keylen
    pure (r, h)
  | .unset | .max => pure (⟨hiErrInternal, none⟩, h)

/-- `hi_remove`. -/
def hiRemove (h : HiHandle δ) (key : Bytes) (keylen : UInt32) : Prog (Result δ × HiHandle δ) :=
  match h.collEng with
  | .list | .listHash | .listMtf | .listMtfHash => lhiRemoveList h key keylen
  | .rbtree => lhiRemoveRbtree h key keylen
  | .array | .arrayHash | .arrayDyn | .arrayDynHash => lhiRemoveArray h key keylen
  | .unset | .max => pure (⟨hiErrInternal, none⟩, h)

/-- `do_rehash`, whose call of `hi_rehash` is `rehash`. The quotient is one of `uint32_t`. -/
def doRehash (rehash : HiHandle δ → UInt32 → Prog (Int × HiHandle δ)) (h : HiHandle δ) :
    Prog (HiHandle δ) :=
  if h.rehashAuto = 0 then pure h
  else do
    let lf ← udiv h.noObjects h.tableSize
    if h.rehashThreshold.below (floatOfUInt32 lf) then do
      let (_, h) ← rehash h (h.tableSize * 2)
      pure h
    else pure h

/-- The switch of `hi_insert`. -/
def engineInsert (h : HiHandle δ) (key : Bytes) (keylen : UInt32) (data : δ) :
    Prog (Int × HiHandle δ) :=
  match h.collEng with
  | .list | .listHash | .listMtf | .listMtfHash => lhiInsertList h key keylen data
  | .array | .arrayHash | .arrayDyn | .arrayDynHash => lhiInsertArray h key keylen data
  | .rbtree => lhiInsertRbtree h key keylen data
  | .unset | .max => pure (hiErrInternal, h)

/-- `hi_insert`, whose call of `hi_rehash` is `rehash`. -/
def hiInsertWith (rehash : HiHandle δ → UInt32 → Prog (Int × HiHandle δ)) (h : HiHandle δ)
    (key : Bytes) (keylen : UInt32) (data : δ) : Prog (Int × HiHandle δ) := do
  let found ← hiLookup h key keylen
  if found = success then
    pure (hiErrDupkey, h)
  else do
    let h ← doRehash rehash h
    engineInsert h key keylen data

/-! ## Destruction -/

/-- The end of `lhi_fini_internal`. -/
def finishFini (h : HiHandle δ) : Prog (Int × HiHandle δ) := do
  lhiPthreadMutexUnlock h.mutexLock
  let _ ← lhiPthreadMutexDestroy h.mutexLock
  free h.bucketSize.addr
  pure (0, { h with bucketSize := { h.bucketSize with cells := [] } })

/-- `lhi_fini_internal`. -/
def lhiFiniInternal (h : HiHandle δ) : Prog (Int × HiHandle δ) := do
  lhiPthreadMutexLock h.mutexLock
  match h.collEng with
  | .list | .listHash | .listMtf | .listMtfHash => do
    let (_, h) ← lhiFiniList h
    finishFini h
  | .array | .arrayHash | .arrayDyn | .arrayDynHash => do
    let (_, h) ← lhiFiniArray h
    finishFini h
  | .rbtree => do
    let (_, h) ← lhiFiniRbtree h
    finishFini h
  | .unset | .max => pure (hiErrInternal, h)

/-- `hi_fini`. -/
def hiFini (h : HiHandle δ) : Prog Int := do
  let (ret, _) ← lhiFiniInternal h
  if ret = 0 then do
    free (some h.self)
    pure ret
  else pure ret

/-! ## Creation -/

/-- `lhi_set_sanity_hash2`. -/
def lhiSetSanityHash2 (s : HiInitSet) : Int :=
  match s.hash2Func with
  | none => hiErrNodata
  | some f => if s.hashFunc.map HashFunc.addr = some f.addr then hiErrNodata else success

/-- `lhi_set_sanity_array`. -/
def lhiSetSanityArray (s : HiInitSet) : Int :=
  if s.collEngArraySize = 0 then hiErrNodata else success

/-- `lhi_set_sanity_check`, with the settings it lets through. -/
def lhiSetSanityCheck (s : HiInitSet) : Except Int UserSettings :=
  if s.tableSize = 0 then .error hiErrNodata
  else
    match s.keyCmp, s.hashFunc with
    | none, _ => .error hiErrNodata
    | _, none => .error hiErrNodata
    | some keyCmp, some hashFunc =>
      let ret := match s.collEng with
        | .list | .listMtf | .arrayHash | .arrayDyn | .rbtree => success
        | .listHash | .listMtfHash | .arrayDynHash => lhiSetSanityHash2 s
        | .array => lhiSetSanityArray s
        | .unset | .max => hiErrInternal
      if ret ≠ success then .error ret
      else .ok ⟨s.tableSize, s.collEng, s.rehashAuto, s.rehashThreshold, s.collEngArraySize,
        hashFunc, s.hash2Func, keyCmp⟩

/-- `lhi_create_vanilla_hdnl`: the memory of a handle, filled with zeros. -/
def lhiCreateVanillaHdnl : Prog (Except Int Ptr) := do
  match ← xallocAlign with
  | .error _ => pure (.error hiErrSystem)
  | .ok fresh => pure (.ok fresh.addr)

/-- The new handle at `self`, without the structures of an engine. The cells of `bucket_size` keep
the words that were in the fresh block. -/
def HiHandle.ofSettings (u : UserSettings) (self : Ptr) (sizes : Fresh) (lock : Ptr) :
    HiHandle δ :=
  { u with
    self := self
    bucketSize := ⟨some sizes.addr, (List.range u.tableSize.toNat).map sizes.junk⟩
    noObjects := 0
    bucketTable := .null
    objs := fun _ => none
    bucketArray := .null
    bucketArraySlotSize := .null
    bucketArraySlotMax := .null
    trees := .null
    nodes := fun _ => none
    entries := fun _ => none
    mutexLock := some lock }

/-- `lhi_create_eng_list`. -/
def lhiCreateEngList (h : HiHandle δ) : Prog (Except Int (HiHandle δ)) := do
  match ← xallocAlign with
  | .error _ => pure (.error hiErrSystem)
  | .ok table =>
    let n := h.tableSize.toNat
    pure (.ok { h with
      bucketTable := ⟨some table.addr, List.replicate n none⟩
      bucketSize := { h.bucketSize with cells := List.replicate n 0 } })

/-- The loop of `lhi_create_eng_rbtree`, with `n` trees to go. When a lock cannot be initialised,
the locks of the earlier trees are destroyed, the last first. -/
def initTrees : Nat → List HiRbTree → Prog (Except Int (List HiRbTree))
  | 0, trees => pure (.ok trees)
  | n + 1, trees => do
    match ← lhiPthreadLockInit with
    | .error _ => do
      trees.reverse.forM fun t => do
        let _ ← lhiPthreadRwlockDestroy t.rwlock
        pure ()
      pure (.error hiErrSystem)
    | .ok lock => initTrees n (trees ++ [⟨none, some lock⟩])

/-- `lhi_create_eng_rbtree`. -/
def lhiCreateEngRbtree (h : HiHandle δ) : Prog (Except Int (HiHandle δ)) := do
  match ← malloc with
  | none => pure (.error hiErrSystem)
  | some trees => do
    lhiPthreadMutexLock h.mutexLock
    match ← initTrees h.tableSize.toNat [] with
    | .error e => pure (.error e)
    | .ok cells => do
      lhiPthreadMutexUnlock h.mutexLock
      pure (.ok { h with
        trees := ⟨some trees.addr, cells⟩
        bucketSize := { h.bucketSize with cells := List.replicate h.tableSize.toNat 0 } })

/-- The loop of `lhi_create_eng_array`, with `n` buckets to go. -/
def initBuckets (slots : Nat) :
    Nat → List (Block (HiBucketAObj δ)) → Prog (Except Int (List (Block (HiBucketAObj δ))))
  | 0, buckets => pure (.ok buckets)
  | n + 1, buckets => do
    match ← xallocAlign with
    | .error _ => pure (.error hiErrSystem)
    | .ok fresh => do
      let cells := markFree (List.replicate slots ⟨none, none⟩) 0 slots
      initBuckets slots n (buckets ++ [⟨some fresh.addr, cells⟩])

/-- `lhi_create_eng_array`. -/
def lhiCreateEngArray (h : HiHandle δ) : Prog (Except Int (HiHandle δ)) := do
  match ← xallocAlign with
  | .error _ => pure (.error hiErrSystem)
  | .ok slotSize =>
    match ← xallocAlign with
    | .error _ => pure (.error hiErrSystem)
    | .ok slotMax =>
      match ← xallocAlign with
      | .error _ => pure (.error hiErrSystem)
      | .ok array => do
        let n := h.tableSize.toNat
        match ← initBuckets h.collEngArraySize.toNat n [] with
        | .error e => pure (.error e)
        | .ok buckets =>
          pure (.ok { h with
            bucketArray := ⟨some array.addr, buckets⟩
            bucketArraySlotSize := ⟨some slotSize.addr, List.replicate n 0⟩
            bucketArraySlotMax := ⟨some slotMax.addr, List.replicate n h.collEngArraySize⟩ })

/-- The switch of `hi_create` and `hi_rehash`. -/
def createEng (h : HiHandle δ) : Prog (Except Int (HiHandle δ)) :=
  match h.collEng with
  | .list | .listHash | .listMtf | .listMtfHash => lhiCreateEngList h
  | .array | .arrayHash | .arrayDyn | .arrayDynHash => lhiCreateEngArray h
  | .rbtree => lhiCreateEngRbtree h
  | .unset | .max => pure (.error hiErrInternal)

/-- The part of `hi_create` and `hi_rehash` that follows once the settings are known. What was
allocated before a failure is not released. -/
def createWith (u : UserSettings) (self : Ptr) : Prog (Except Int (HiHandle δ)) := do
  match ← xallocAlign with
  | .error _ => pure (.error hiErrSystem)
  | .ok sizes =>
    match ← lhiPthreadLockInit with
    | .error _ => pure (.error hiErrSystem)
    | .ok lock => createEng (HiHandle.ofSettings u self sizes lock)

/-- `hi_create`. -/
def hiCreate (s : HiInitSet) : Prog (Except Int (HiHandle δ)) := do
  match ← lhiCreateVanillaHdnl with
  | .error e => pure (.error e)
  | .ok self =>
    match lhiSetSanityCheck s with
    | .error e => pure (.error e)
    | .ok u => createWith u self

/-! ## Rehashing -/

/-- The loop of `hi_rehash`. Each bucket hands out fewer than `2 ^ 32` entries, which bounds the
number of iterations. The second result is the new handle, unless the loop ended early. -/
def rehashLoop (old : HiHandle δ) :
    Nat → HiIterator δ → HiHandle δ → Prog (Int × HiIterator δ × Option (HiHandle δ))
  | 0, _, _ => Prog.fault .nontermination
  | fuel + 1, iterator, h => do
    let (ret, next, iterator) ← hiIteratorGetnext old iterator
    match next with
    | none => pure (ret, iterator, some h)
    | some item => do
      let (ret, h) ← hiInsertWith (fun _ _ => Prog.fault .nontermination) h item.key.cells
        item.keylen item.data
      if ret ≠ success then do
        hiIteratorFini iterator
        let fini ← hiFini h
        if fini = 0 then record (.danglingWrite h.self) else pure ()
        pure (ret, iterator, none)
      else rehashLoop old fuel iterator h

/-- `hi_rehash`. The settings are taken over by `lhi_transform_hndl_2_hndl`. At the end the new
handle is copied over the old one, whose address stays. -/
def hiRehash (h : HiHandle δ) (newTableSize : UInt32) : Prog (Int × HiHandle δ) := do
  match ← lhiCreateVanillaHdnl with
  | .error e => pure (e, h)
  | .ok self =>
    match ← createWith { h.toUserSettings with tableSize := newTableSize } self with
    | .error e => pure (e, h)
    | .ok new =>
      match ← hiIteratorCreate h with
      | .error e => pure (e, h)
      | .ok iterator => do
        let (ret, iterator, rebuilt) ← rehashLoop h (h.tableSize.toNat * 2 ^ 32 + 1) iterator
          { new with rehashAuto := 0 }
        match rebuilt with
        | none => pure (ret, h)
        | some new => do
          hiIteratorFini iterator
          if ret ≠ hiErrNodata then pure (ret, h)
          else do
            let _ ← lhiFiniInternal h
            pure (success, { new with rehashAuto := h.rehashAuto, self := h.self })

/-- `hi_insert`. -/
def hiInsert (h : HiHandle δ) (key : Bytes) (keylen : UInt32) (data : δ) :
    Prog (Int × HiHandle δ) :=
  hiInsertWith hiRehash h key keylen data

end Hashish
