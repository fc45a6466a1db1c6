import Hashish.BucketArray
import Hashish.Rbtree

/-!
# The tree engine (`hi_rbtree.c`, second part)

Each bucket is a search tree. A `struct lhi_rb_entry` is a node and an `Entry`
under the same address. Keys that compare smaller than a node's key (`diff < 0`)
lie on its right.
-/

namespace Hashish

open Hashish.Lib

variable {δ : Type}

/-! ## Descents -/

/-- Where a descent ends: at a node with the key, or at an empty link below `parent`. -/
inductive Descent
  | found (p : Ptr)
  | missing (parent : Option Ptr) (link : RbLink)
deriving DecidableEq, Repr

/-- The loop `while (*rbnode)`: `rbnode` is the content of the link `link` below `parent`. -/
def rbDescend (h : HiHandle δ) (key : Bytes) :
    Nat → Option Ptr → Option Ptr → RbLink → Prog Descent
  | 0, _, _, _ => Prog.fault .nontermination
  | _ + 1, none, parent, link => pure (.missing parent link)
  | fuel + 1, some p, _, _ => do
    let e ← deref h.entries (some p)
    let diff := h.keyCmp key e.key.cells
    if diff = 0 then pure (.found p)
    else do
      let n ← deref h.nodes (some p)
      if diff < 0 then rbDescend h key fuel n.rbRight (some p) (.child p .right)
      else rbDescend h key fuel n.rbLeft (some p) (.child p .left)

/-- Descend in the tree of a bucket. -/
def HiHandle.descend (h : HiHandle δ) (tree : Nat) (key : Bytes) : Prog Descent := do
  let t ← h.trees.load tree
  let fuel ← walkBound
  rbDescend h key fuel t.rbNode none .root

/-- Run a function of the tree library on the tree of a bucket. -/
def HiHandle.onTree (h : HiHandle δ) (tree : Nat) (f : RbRoot → Except Fault RbRoot) :
    Prog (HiHandle δ) := do
  let t ← h.trees.load tree
  let root ← Prog.ofExcept (f ⟨h.nodes, t.rbNode⟩)
  let trees ← h.trees.store tree { t with rbNode := root.rbNode }
  pure { h with nodes := root.nodes, trees := trees }

/-! ## Retrieval -/

/-- The part of `lhi_get_rbtree` that holds the lock. It descends from `root`, which was read
before. -/
def lhiGetRbtreeNode (h : HiHandle δ) (tree : Nat) (root : Option Ptr) (key : Bytes) :
    Prog (Result δ) := do
  let t ← h.trees.load tree
  lhiPthreadRwlockRdlock t.rwlock
  let fuel ← walkBound
  match ← rbDescend h key fuel root none .root with
  | .found p => do
    let e ← deref h.entries (some p)
    lhiPthreadRwlockUnlock t.rwlock
    pure ⟨success, some e.data⟩
  | .missing _ _ => do
    lhiPthreadRwlockUnlock t.rwlock
    pure ⟨hiErrNokey, none⟩

/-- `lhi_get_rbtree`. The root is read before the lock is taken. -/
def lhiGetRbtree (h : HiHandle δ) (key : Bytes) (keylen : UInt32) : Prog (Result δ) := do
  let tree ← h.bucketOf key keylen
  let t ← h.trees.load tree
  lhiGetRbtreeNode h tree t.rbNode key

/-! ## Removal -/

/-- The part of `lhi_remove_rbtree` that holds the lock of the tree. -/
def lhiRemoveRbtreeNode (h : HiHandle δ) (key : Bytes) (keylen : UInt32) :
    Prog (Result δ × HiHandle δ) := do
  let tree ← h.bucketOf key keylen
  let t ← h.trees.load tree
  lhiPthreadRwlockWrlock t.rwlock
  match ← h.descend tree key with
  | .missing _ _ => do
    lhiPthreadRwlockUnlock t.rwlock
    pure (⟨hiErrNokey, none⟩, h)
  | .found p => do
    let e ← deref h.entries (some p)
    let fuel ← walkBound
    let h ← h.onTree tree fun root => rbErase fuel root p
    free e.key.addr
    free (some p)
    let size ← h.bucketSize.load tree
    let sizes ← h.bucketSize.store tree (size - 1)
    lhiPthreadRwlockUnlock t.rwlock
    pure (⟨success, some e.data⟩, { h with
      nodes := h.nodes.set p none
      entries := h.entries.set p none
      bucketSize := sizes })

/-- The part of `lhi_remove_rbtree` that holds the mutex: `no_objects--`. -/
def HiHandle.uncountObject (h : HiHandle δ) : Prog (HiHandle δ) := do
  lhiPthreadMutexLock h.mutexLock
  lhiPthreadMutexUnlock h.mutexLock
  pure { h with noObjects := h.noObjects - 1 }

/-- `lhi_remove_rbtree`. -/
def lhiRemoveRbtree (h : HiHandle δ) (key : Bytes) (keylen : UInt32) :
    Prog (Result δ × HiHandle δ) := do
  let (r, h) ← lhiRemoveRbtreeNode h key keylen
  if r.status = success then do
    let h ← h.uncountObject
    pure (r, h)
  else pure (r, h)

/-! ## Insertion -/

/-- `lhi_rb_entry_new`: the node of the new entry is indeterminate. -/
def lhiRbEntryNew (k : Bytes) (d : δ) (keylen : UInt32) : Prog (Option (Ptr × Entry δ)) := do
  match ← malloc with
  | none => pure none
  | some nodeNew =>
    match ← malloc with
    | none => do
      free (some nodeNew.addr)
      pure none
    | some dupkey => do
      let key ← memcpy dupkey.addr k keylen.toNat
      pure (some (nodeNew.addr, ⟨keylen, key, d⟩))

/-- The part of `lhi_insert_rbtree` that holds the lock of the tree. -/
def lhiInsertRbtreeNode (h : HiHandle δ) (key : Bytes) (keylen : UInt32) (data : δ) :
    Prog (Int × HiHandle δ) := do
  let tree ← h.bucketOf key keylen
  let t ← h.trees.load tree
  lhiPthreadRwlockWrlock t.rwlock
  match ← h.descend tree key with
  | .found _ => do
    lhiPthreadRwlockUnlock t.rwlock
    pure (hiErrDupkey, h)
  | .missing parent link => do
    match ← lhiRbEntryNew key data keylen with
    | none => do
      lhiPthreadRwlockUnlock t.rwlock
      pure (hiErrSystem, h)
    | some (nodeNew, e) => do
      let fuel ← walkBound
      let h ← h.onTree tree fun root => do
        let root ← rbLinkNode root nodeNew parent link
        rbInsertColor fuel root nodeNew
      let size ← h.bucketSize.load tree
      let sizes ← h.bucketSize.store tree (size + 1)
      lhiPthreadRwlockUnlock t.rwlock
      pure (success, { h with entries := h.entries.set nodeNew (some e), bucketSize := sizes })

/-- The part of `lhi_insert_rbtree` that holds the mutex: `no_objects++`. -/
def HiHandle.countObject (h : HiHandle δ) : Prog (HiHandle δ) := do
  lhiPthreadMutexLock h.mutexLock
  lhiPthreadMutexUnlock h.mutexLock
  pure { h with noObjects := h.noObjects + 1 }

/-- `lhi_insert_rbtree`. -/
def lhiInsertRbtree (h : HiHandle δ) (key : Bytes) (keylen : UInt32) (data : δ) :
    Prog (Int × HiHandle δ) := do
  let (ret, h) ← lhiInsertRbtreeNode h key keylen data
  if ret = success then do
    let h ← h.countObject
    pure (ret, h)
  else pure (ret, h)

/-! ## Snapshots -/

/-- Go on at a child, if there is one. -/
def traverseChild (visit : Ptr → Nat → BucketArray δ → Prog (Nat × BucketArray δ))
    (child : Option Ptr) (pos : Nat) (a : BucketArray δ) : Prog (Nat × BucketArray δ) :=
  match child with
  | none => pure (pos, a)
  | some rbnode => visit rbnode pos a

/-- `hi_rbtree_traverse`: pre-order, so the subtrees are copied before the node itself is. -/
def hiRbtreeTraverse (h : HiHandle δ) :
    Nat → Ptr → Nat → BucketArray δ → Prog (Nat × BucketArray δ)
  | 0, _, _, _ => Prog.fault .nontermination
  | fuel + 1, rbnode, p, a => do
    let n ← deref h.nodes (some rbnode)
    let (pos, a) ← traverseChild (hiRbtreeTraverse h fuel) n.rbLeft (sizeT (p + 1)) a
    let (pos, a) ← traverseChild (hiRbtreeTraverse h fuel) n.rbRight pos a
    let e ← deref h.entries (some rbnode)
    if p < a.nmemb then do
      let a ← a.put p e.data e.key e.keyLen
      pure (pos, a)
    else pure (pos, a)

/-- `lhi_rbtree_bucket_to_array`. -/
def lhiRbtreeBucketToArray (h : HiHandle δ) (tree : Nat) (a : BucketArray δ) :
    Prog (Int × BucketArray δ) := do
  if h.tableSize.toNat < tree then
    pure (hiErrRange, a)
  else do
    let t ← h.trees.load tree
    match t.rbNode with
    | none => pure (hiErrNodata, a)
    | some rbnode => do
      lhiPthreadRwlockRdlock t.rwlock
      let max ← h.bucketSize.load tree
      if max = 0 then do
        lhiPthreadRwlockUnlock t.rwlock
        pure (hiErrNodata, a)
      else do
        let (ret, a) ← lhiBucketArrayAlloc a max.toNat
        if ret ≠ 0 then do
          lhiPthreadRwlockUnlock t.rwlock
          pure (ret, a)
        else do
          let fuel ← walkBound
          let (_, a) ← hiRbtreeTraverse h fuel rbnode 0 a
          lhiPthreadRwlockUnlock t.rwlock
          pure (0, a)

/-! ## Destruction -/

/-- `lhi_fini_rbtree`: the entries are not released. -/
def lhiFiniRbtree (h : HiHandle δ) : Prog (Int × HiHandle δ) := do
  Prog.forUp (fun i _ => do
    let t ← h.trees.load i
    lhiPthreadRwlockWrlock t.rwlock
    lhiPthreadRwlockUnlock t.rwlock
    let _ ← lhiPthreadRwlockDestroy t.rwlock
    pure ()) h.tableSize.toNat 0 ()
  free h.trees.addr
  pure (success, { h with tableSize := 0, trees := .null })

end Hashish
