import Hashish.DivisionSafety
import Hashish.KeyOrder

/-!
# The size of a table is never zero when it divides

Only `hi_create` checks the size of a table. `hi_rehash` takes any size, zero included,
and the automatic doubling wraps: both lead to a division by zero as soon as there is an
entry to move.

* `rehash_to_zero_divides`: such a run.
* `runs_never_divide_by_zero`: no other run divides by zero.
-/

namespace Hashish

open Hashish.Lib

variable {δ : Type} {h : HiHandle δ}

/-! ## Iterators -/

/-- The counters that the iterators go by. -/
def HiHandle.counters (h : HiHandle δ) : List UInt32 :=
  match h.collEng with
  | .array | .arrayHash | .arrayDyn | .arrayDynHash => h.bucketArraySlotSize.cells
  | _ => h.bucketSize.cells

/-- All counters are zero: there is nothing to hand out. -/
def HiHandle.Vacant (h : HiHandle δ) : Prop := ∀ c ∈ h.counters, c = 0

theorem noDiv_lhiBucketArrayAlloc {a : BucketArray δ} {n : Nat} (hn : n ≠ 0) :
    NoDiv (lhiBucketArrayAlloc a n) fun _ => True := by
  refine (noDiv_sizeDiv hn).seq fun q => ?_
  split
  · exact .pure trivial
  refine noDiv_malloc.seq fun memD => ?_
  cases memD with
  | none => exact .pure trivial
  | some memD =>
  refine noDiv_malloc.seq fun memK => ?_
  cases memK with
  | none => exact noDiv_free.seq fun _ => .pure trivial
  | some memK =>
  refine (noDiv_sizeDiv hn).seq fun q => ?_
  split
  · exact noDiv_free.seq fun _ => noDiv_free.seq fun _ => .pure trivial
  refine noDiv_malloc.seq fun keylen => ?_
  cases keylen with
  | none => exact noDiv_free.seq fun _ => noDiv_free.seq fun _ => .pure trivial
  | some keylen => exact .pure trivial

theorem noDiv_put {a : BucketArray δ} {i : Nat} {data : δ} {key : Block UInt8} {keyLen : UInt32} :
    NoDiv (a.put i data key keyLen) fun _ => True :=
  noDiv_store.seq fun _ => noDiv_store.seq fun _ => noDiv_store.seq fun _ => .pure trivial

theorem toNat_ne_zero {c : UInt32} (hc : c ≠ 0) : c.toNat ≠ 0 :=
  fun h₀ => hc (UInt32.toNat_inj.mp h₀)

theorem noDiv_lhiListBucketToArray {b : Nat} {a : BucketArray δ} :
    NoDiv (lhiListBucketToArray h b a) fun r => (∀ c ∈ h.bucketSize.cells, c = 0) → r.1 ≠ 0 := by
  have hcopy : ∀ fuel v i (a : BucketArray δ), NoDiv (copyChain h.objs fuel v i a) fun _ => True := by
    intro fuel
    induction fuel with
    | zero => exact fun _ _ _ => .fault nofun
    | succ fuel ih =>
      intro v i a
      cases v with
      | none => exact .pure trivial
      | some v => exact noDiv_deref.seq fun _ => noDiv_put.seq fun _ => ih _ _ _
  unfold lhiListBucketToArray
  split
  · exact .pure fun _ => show hiErrRange ≠ 0 by decide
  refine noDiv_record.seq fun _ => noDiv_load.bind fun max hmax => ?_
  split
  · exact noDiv_record.seq fun _ => .pure fun _ => show hiErrNodata ≠ 0 by decide
  rename_i hne
  refine NoDiv.imp (P := fun _ => True) ?_ fun _ _ hz => (hne (hz max hmax)).elim
  refine (noDiv_lhiBucketArrayAlloc (toNat_ne_zero hne)).seq fun r => ?_
  dsimp only
  split
  · exact noDiv_record.seq fun _ => .pure trivial
  have hrest : ∀ a : BucketArray δ, NoDiv (do
      let bObj ← h.bucketTable.load b
      let fuel ← walkBound
      let a ← copyChain h.objs fuel bObj 0 a
      lhiPthreadMutexUnlock h.mutexLock
      pure ((0 : Int), a)) fun _ => True := fun a =>
    .bind noDiv_load fun _ _ => noDiv_walkBound.seq fun _ => (hcopy _ _ _ _).seq fun _ =>
      noDiv_record.seq fun _ => .pure trivial
  split
  · exact hrest _
  · exact hrest _
  · exact hrest _
  · exact hrest _
  · exact noDiv_record.seq fun _ => .pure trivial

theorem noDiv_lhiRbtreeBucketToArray {b : Nat} {a : BucketArray δ} :
    NoDiv (lhiRbtreeBucketToArray h b a) fun r => (∀ c ∈ h.bucketSize.cells, c = 0) → r.1 ≠ 0 := by
  have htraverse : ∀ fuel n p (a : BucketArray δ),
      NoDiv (hiRbtreeTraverse h fuel n p a) fun _ => True := by
    intro fuel
    induction fuel with
    | zero => exact fun _ _ _ => .fault nofun
    | succ fuel ih =>
      intro n p a
      have hchild : ∀ child p a,
          NoDiv (traverseChild (hiRbtreeTraverse h fuel) child p a) fun _ => True := by
        intro child p a
        cases child with
        | none => exact .pure trivial
        | some n => exact ih _ _ _
      refine noDiv_deref.seq fun n => (hchild _ _ _).seq fun r₁ => (hchild _ _ _).seq fun r₂ =>
        noDiv_deref.seq fun e => ?_
      split
      · exact noDiv_put.seq fun _ => .pure trivial
      · exact .pure trivial
  unfold lhiRbtreeBucketToArray
  split
  · exact .pure fun _ => show hiErrRange ≠ 0 by decide
  refine .bind noDiv_load fun t _ => ?_
  split
  · exact .pure fun _ => show hiErrNodata ≠ 0 by decide
  refine noDiv_record.seq fun _ => noDiv_load.bind fun max hmax => ?_
  split
  · exact noDiv_record.seq fun _ => .pure fun _ => show hiErrNodata ≠ 0 by decide
  rename_i hne
  refine NoDiv.imp (P := fun _ => True) ?_ fun _ _ hz => (hne (hz max hmax)).elim
  refine (noDiv_lhiBucketArrayAlloc (toNat_ne_zero hne)).seq fun r => ?_
  dsimp only
  split
  · exact noDiv_record.seq fun _ => .pure trivial
  · exact noDiv_walkBound.seq fun _ => (htraverse _ _ _ _).seq fun _ => noDiv_record.seq fun _ =>
      .pure trivial

theorem noDiv_lhiArrayBucketToArray {b : Nat} {a : BucketArray δ} :
    NoDiv (lhiArrayBucketToArray h b a) fun r =>
      (∀ c ∈ h.bucketArraySlotSize.cells, c = 0) → r.1 ≠ 0 := by
  have hcopy : ∀ n i j (a : BucketArray δ), NoDiv (copySlots h b n i j a) fun _ => True := by
    intro n
    induction n with
    | zero => exact fun _ _ _ => .pure trivial
    | succ n ih =>
      intro i j a
      refine noDiv_slot.seq fun slot => noDiv_written.seq fun al => ?_
      cases al with
      | baNotAllocated => exact ih _ _ _
      | baAllocated =>
        exact noDiv_written.seq fun _ => noDiv_store.seq fun _ => noDiv_store.seq fun _ =>
          noDiv_store.seq fun _ => ih _ _ _
  refine noDiv_record.seq fun _ => noDiv_load.bind fun len hlen => ?_
  split
  · exact noDiv_record.seq fun _ => .pure fun _ => show hiErrNodata ≠ 0 by decide
  rename_i hne
  refine NoDiv.imp (P := fun _ => True) ?_ fun _ _ hz => (hne (hz len hlen)).elim
  refine (noDiv_lhiBucketArrayAlloc (toNat_ne_zero hne)).seq fun r => ?_
  dsimp only
  split
  · exact noDiv_record.seq fun _ => .pure trivial
  · exact (hcopy _ _ _ _).seq fun _ => noDiv_record.seq fun _ => .pure trivial

/-- The next bucket of a vacant table is never found. -/
theorem noDiv_getNextBucket {err : Int} {i : HiIterator δ} (herr : err ≠ 0) :
    NoDiv (getNextBucket err h i) fun r => h.Vacant → r.1 ≠ 0 := by
  have hloop : ∀ (toArray : ToArray δ) (V : Prop),
      (∀ b a, NoDiv (toArray h b a) fun r => V → r.1 ≠ 0) →
      ∀ n i, NoDiv (getNextLoop toArray h n i) fun r => V → r.1 ≠ 0 := by
    intro toArray V hto n
    induction n with
    | zero => exact fun _ => .pure fun _ => show hiErrNodata ≠ 0 by decide
    | succ n ih =>
      intro i
      refine (hto _ _).bind fun r hr => ?_
      dsimp only
      split
      · rename_i hres
        exact .pure fun hv => (hr hv hres).elim
      split
      · rename_i hres _
        exact .pure fun _ => hres
      · exact ih _
  unfold getNextBucket HiHandle.Vacant HiHandle.counters
  cases h.collEng
  case unset | max => exact .pure fun _ => herr
  case list | listHash | listMtf | listMtfHash =>
    exact hloop _ _ (fun _ _ => noDiv_lhiListBucketToArray) _ _
  case array | arrayHash | arrayDyn | arrayDynHash =>
    exact hloop _ _ (fun _ _ => noDiv_lhiArrayBucketToArray) _ _
  case rbtree => exact hloop _ _ (fun _ _ => noDiv_lhiRbtreeBucketToArray) _ _

theorem noDiv_hiIteratorCreate :
    NoDiv (hiIteratorCreate h) fun r => h.Vacant → ∃ e, r = .error e := by
  refine noDiv_malloc.seq fun it => ?_
  cases it with
  | none => exact .pure fun _ => ⟨_, rfl⟩
  | some it =>
    refine (noDiv_getNextBucket (show hiErrInternal ≠ 0 by decide)).bind fun r hr => ?_
    dsimp only
    split
    · rename_i hres
      exact .pure fun hv => (hr hv hres).elim
    · exact noDiv_free.seq fun _ => .pure fun _ => ⟨_, rfl⟩

theorem noDiv_bucketArrayFree {a : BucketArray δ} : NoDiv (lhiBucketArrayFree a) fun _ => True :=
  noDiv_free.seq fun _ => noDiv_free.seq fun _ => noDiv_free.seq fun _ => .pure trivial

theorem noDiv_handOut {i : HiIterator δ} : NoDiv i.handOut fun _ => True :=
  noDiv_loadWritten.seq fun _ => noDiv_loadWritten.seq fun _ => noDiv_loadWritten.seq fun _ =>
    .pure trivial

theorem noDiv_hiIteratorGetnext {i : HiIterator δ} :
    NoDiv (hiIteratorGetnext h i) fun _ => True := by
  unfold hiIteratorGetnext
  split
  · exact noDiv_handOut.seq fun _ => .pure trivial
  refine noDiv_bucketArrayFree.seq fun a => ?_
  refine (noDiv_getNextBucket (show hiErrInternal ≠ 0 by decide)).bind fun r _ => ?_
  dsimp only
  split
  · exact noDiv_handOut.seq fun _ => .pure trivial
  · exact .pure trivial

/-! ## Operations -/

section Operations

variable {key : Bytes} {keylen : UInt32} {data : δ}

theorem noDiv_hiLookup (hu : h.tableSize ≠ 0) : NoDiv (hiLookup h key keylen) fun _ => True := by
  unfold hiLookup
  cases h.collEng
  case list | listHash | listMtf | listMtfHash =>
    exact noDiv_record.seq fun _ => (noDiv_lhiLookupList hu).seq fun _ => noDiv_record.seq fun _ =>
      .pure trivial
  all_goals exact .pure trivial

theorem noDiv_hiGet (hu : h.tableSize ≠ 0) :
    NoDiv (hiGet h key keylen) fun r => r.2.toUserSettings = h.toUserSettings := by
  unfold hiGet
  cases h.collEng
  case list | listHash | listMtf | listMtfHash => exact noDiv_lhiGetList hu
  case array | arrayHash | arrayDyn | arrayDynHash =>
    exact (noDiv_lhiGetArray hu).seq fun _ => .pure rfl
  case rbtree => exact (noDiv_lhiGetRbtree hu).seq fun _ => .pure rfl
  case unset | max => exact .pure rfl

theorem noDiv_hiRemove (hu : h.tableSize ≠ 0) :
    NoDiv (hiRemove h key keylen) fun r => r.2.toUserSettings = h.toUserSettings := by
  unfold hiRemove
  cases h.collEng
  case list | listHash | listMtf | listMtfHash => exact noDiv_lhiRemoveList hu
  case array | arrayHash | arrayDyn | arrayDynHash => exact noDiv_lhiRemoveArray hu
  case rbtree => exact noDiv_lhiRemoveRbtree hu
  case unset | max => exact .pure rfl

theorem noDiv_engineInsert (hu : h.tableSize ≠ 0) :
    NoDiv (engineInsert h key keylen data) fun r => r.2.toUserSettings = h.toUserSettings := by
  unfold engineInsert
  cases h.collEng
  case list | listHash | listMtf | listMtfHash => exact noDiv_lhiInsertList hu
  case array | arrayHash | arrayDyn | arrayDynHash => exact noDiv_lhiInsertArray hu
  case rbtree => exact noDiv_lhiInsertRbtree hu
  case unset | max => exact .pure rfl

/-- An insertion into a table that does not rehash by itself. -/
theorem noDiv_hiInsertWith {rehash : HiHandle δ → UInt32 → Prog (Int × HiHandle δ)}
    (hu : h.tableSize ≠ 0) (hauto : h.rehashAuto = 0) :
    NoDiv (hiInsertWith rehash h key keylen data) fun r =>
      r.2.toUserSettings = h.toUserSettings := by
  refine (noDiv_hiLookup hu).seq fun found => ?_
  split
  · exact .pure rfl
  rw [doRehash, if_pos hauto]
  refine NoDiv.bind (P := (· = h)) (.pure rfl) fun h' hh => ?_
  subst hh
  exact noDiv_engineInsert hu

theorem noDiv_lhiFiniInternal : NoDiv (lhiFiniInternal h) fun _ => True := by
  have hfinish : ∀ h : HiHandle δ, NoDiv (finishFini h) fun _ => True := fun h =>
    noDiv_record.seq fun _ => noDiv_lockDestroy.seq fun _ => noDiv_free.seq fun _ => .pure trivial
  refine noDiv_record.seq fun _ => ?_
  cases h.collEng
  case list | listHash | listMtf | listMtfHash => exact noDiv_lhiFiniList.seq fun _ => hfinish _
  case array | arrayHash | arrayDyn | arrayDynHash => exact noDiv_lhiFiniArray.seq fun _ => hfinish _
  case rbtree => exact noDiv_lhiFiniRbtree.seq fun _ => hfinish _
  case unset | max => exact .pure trivial

theorem noDiv_hiFini : NoDiv (hiFini h) fun _ => True := by
  refine noDiv_lhiFiniInternal.seq fun r => ?_
  dsimp only
  split
  · exact noDiv_free.seq fun _ => .pure trivial
  · exact .pure trivial

/-! ## Creation and rehashing -/

theorem noDiv_createWith {u : UserSettings} {self : Ptr} :
    NoDiv (createWith u self : Prog (Except Int (HiHandle δ))) fun r =>
      ∀ h, r = .ok h → h.toUserSettings = u := by
  refine noDiv_xallocAlign.seq fun sizes => ?_
  cases sizes with
  | error e => exact .pure (by simp)
  | ok sizes =>
  refine noDiv_lockInit.seq fun lock => ?_
  cases lock with
  | error e => exact .pure (by simp)
  | ok lock =>
  show NoDiv (createEng (HiHandle.ofSettings u self sizes lock)) _
  have hset : (HiHandle.ofSettings u self sizes lock : HiHandle δ).toUserSettings = u := rfl
  unfold createEng
  cases (HiHandle.ofSettings u self sizes lock : HiHandle δ).collEng
  case list | listHash | listMtf | listMtfHash => exact noDiv_lhiCreateEngList
  case array | arrayHash | arrayDyn | arrayDynHash => exact noDiv_lhiCreateEngArray
  case rbtree => exact noDiv_lhiCreateEngRbtree
  case unset | max => exact .pure (by simp)

theorem noDiv_lhiCreateVanillaHdnl : NoDiv lhiCreateVanillaHdnl fun _ => True := by
  refine noDiv_xallocAlign.seq fun r => ?_
  cases r <;> exact .pure trivial

theorem noDiv_hiCreate {s : HiInitSet} :
    NoDiv (hiCreate s : Prog (Except Int (HiHandle δ))) fun r =>
      ∀ h, r = .ok h → lhiSetSanityCheck s = .ok h.toUserSettings := by
  refine noDiv_lhiCreateVanillaHdnl.seq fun r => ?_
  cases r with
  | error e => exact .pure (by simp)
  | ok self =>
    cases hs : lhiSetSanityCheck s with
    | error e => exact .pure (by simp)
    | ok u => exact noDiv_createWith.imp fun r hr h he => congrArg _ (hr h he).symm

/-- The loop fills a table that has a size. -/
theorem noDiv_rehashLoop {new : HiHandle δ} {fuel : Nat} {i : HiIterator δ}
    (hu : new.tableSize ≠ 0) (hauto : new.rehashAuto = 0) :
    NoDiv (rehashLoop h fuel i new) fun r => ∀ new', r.2.2 = some new' → new'.tableSize ≠ 0 := by
  induction fuel generalizing i new with
  | zero => exact .fault nofun
  | succ fuel ih =>
    refine noDiv_hiIteratorGetnext.seq fun r => ?_
    obtain ⟨ret, next, i⟩ := r
    cases next with
    | none =>
      refine .pure fun new' he => ?_
      cases he
      exact hu
    | some item =>
      refine (noDiv_hiInsertWith hu hauto).bind fun r hr => ?_
      obtain ⟨ret, new'⟩ := r
      dsimp only at hr ⊢
      split
      · refine (noDiv_bucketArrayFree.seq fun _ => noDiv_free).seq fun _ =>
          noDiv_hiFini.seq fun fini => ?_
        split
        · exact noDiv_record.seq fun _ => .pure (by simp)
        · exact .pure (by simp)
      · refine ih ?_ ?_
        · rw [show new'.tableSize = new.tableSize from congrArg UserSettings.tableSize hr]
          exact hu
        · rw [show new'.rehashAuto = new.rehashAuto from congrArg UserSettings.rehashAuto hr]
          exact hauto

/-- Rehashing to size zero goes well only if there is nothing to move. -/
theorem noDiv_hiRehash {n : UInt32} (hu : h.tableSize ≠ 0) (hn : n ≠ 0 ∨ h.Vacant) :
    NoDiv (hiRehash h n) fun r => r.2.tableSize ≠ 0 := by
  refine noDiv_lhiCreateVanillaHdnl.seq fun self => ?_
  cases self with
  | error e => exact .pure hu
  | ok self =>
  refine noDiv_createWith.bind fun new hnew => ?_
  cases new with
  | error e => exact .pure hu
  | ok new =>
  refine noDiv_hiIteratorCreate.bind fun i hi => ?_
  cases i with
  | error e => exact .pure hu
  | ok i =>
  have hn' : n ≠ 0 := hn.resolve_right fun hv => by
    obtain ⟨e, he⟩ := hi hv
    cases he
  have hsize : new.tableSize = n := congrArg UserSettings.tableSize (hnew new rfl)
  have hsize' : { new with rehashAuto := 0 }.tableSize ≠ 0 := hsize ▸ hn'
  refine (noDiv_rehashLoop hsize' rfl).bind fun r hr => ?_
  obtain ⟨ret, i, rebuilt⟩ := r
  cases rebuilt with
  | none => exact .pure hu
  | some new' =>
    refine (noDiv_bucketArrayFree.seq fun _ => noDiv_free).seq fun _ => ?_
    split
    · exact .pure hu
    · exact noDiv_lhiFiniInternal.seq fun _ => .pure (hr new' rfl)

end Operations

/-! ## Runs -/

/-- `hi_lookup` finds the key, so that its insertion stops there. -/
def HiHandle.Finds (h : HiHandle δ) (w : World) (k : Key) : Prop :=
  Partial (hiLookup h k.bytes k.keylen) w fun ret _ => ret = success

/-- The condition on a call: a rehash, be it explicit or due before an insertion, asks for a size
other than zero, or finds nothing to move. -/
def SizeOk (_ : Unit) (h : HiHandle δ) (w : World) (op : TableOp δ) : Prop :=
  match op with
  | .map (.insert k _) => h.Due → h.tableSize * 2 ≠ 0 ∨ h.Vacant ∨ h.Finds w k
  | .map (.get _) | .map (.remove _) => True
  | .rehash n => n ≠ 0 ∨ h.Vacant

theorem runs_insert_safe {k : Key} {d : δ} {w : World} (hu : h.tableSize ≠ 0)
    (hok : SizeOk () h w (.map (.insert k d))) :
    Runs (· ≠ .divByZero) (hiInsert h k.bytes k.keylen d) w fun r _ => r.2.tableSize ≠ 0 := by
  have hinsert : ∀ {h' : HiHandle δ} {w'}, h'.tableSize ≠ 0 →
      Runs (· ≠ .divByZero) (engineInsert h' k.bytes k.keylen d) w' fun r _ =>
        r.2.tableSize ≠ 0 := by
    intro h' w' hu'
    refine (noDiv_engineInsert hu' w').imp fun r _ hr => ?_
    rw [show r.2.tableSize = h'.tableSize from congrArg UserSettings.tableSize hr]
    exact hu'
  have hlookup : Runs (· ≠ .divByZero) (hiLookup h k.bytes k.keylen) w fun ret _ =>
      h.Finds w k → ret = success := by
    by_cases hf : h.Finds w k
    · exact (Runs.and_returned (noDiv_hiLookup hu w) hf).imp fun _ _ hr _ => hr.2
    · exact (noDiv_hiLookup hu w).imp fun _ _ _ h' => (hf h').elim
  unfold hiInsert hiInsertWith
  refine Runs.bind hlookup fun found w₁ _ hfound => ?_
  split
  · exact hu
  rename_i hne
  refine runs_bind.mpr (runs_doRehash hu (fun hdue => ?_) fun _ => hinsert hu)
  have hn : h.tableSize * 2 ≠ 0 ∨ h.Vacant := by
    rcases hok hdue with h₁ | h₁ | h₁
    · exact .inl h₁
    · exact .inr h₁
    · exact (hne (hfound h₁)).elim
  exact (noDiv_hiRehash hu hn w₁).imp fun r _ hr => hinsert hr

/-- A call that meets its condition does not divide by zero, and leaves a table with a size. -/
theorem runs_call_safe {op : TableOp δ} {w : World} (hu : h.tableSize ≠ 0) (hok : SizeOk () h w op) :
    Runs (· ≠ .divByZero) (op.call h) w fun r _ => r.2.tableSize ≠ 0 := by
  have hkeep : ∀ {r : Result δ × HiHandle δ}, r.2.toUserSettings = h.toUserSettings →
      r.2.tableSize ≠ 0 := by
    intro r hr
    rw [show r.2.tableSize = h.tableSize from congrArg UserSettings.tableSize hr]
    exact hu
  cases op with
  | map op =>
    cases op with
    | insert k d => exact runs_bind.mpr (runs_insert_safe hu hok)
    | get k => exact (noDiv_hiGet hu w).imp fun _ _ => hkeep
    | remove k => exact (noDiv_hiRemove hu w).imp fun _ _ => hkeep
  | rehash n => exact runs_bind.mpr (noDiv_hiRehash hu hok w)

/-- One entry, and a rehash to the size zero: the insertion into the new table divides by zero. -/
theorem rehash_to_zero_divides :
    (match (tableSession { hiSetZero with
        tableSize := 1, hashFunc := some ⟨0, lhiHashDumb1⟩, keyCmp := some hiCmpUint16T,
        collEng := .list }
      [.map (.insert ⟨[1, 0], by decide⟩ "one"), .rehash 0]).run (World.start fun _ _ => 0) with
      | .ok _ => none
      | .error fault => some fault) = some .divByZero := by
  rfl

/-- A run whose calls meet the condition never divides by zero, and the table always has a size. -/
theorem runs_never_divide_by_zero (s : HiInitSet) (w : World) :
    Runs (· ≠ .divByZero) (hiCreate s : Prog (Except Int (HiHandle δ))) w fun r w₀ =>
      match r with
      | .error _ => True
      | .ok h => ∀ ops : List (TableOp δ), Meets TableOp.call Machine.any SizeOk ops () h w₀ →
          Runs (· ≠ .divByZero) (Prog.calls TableOp.call ops h) w₀ fun r _ =>
            r.2.tableSize ≠ 0 := by
  refine (noDiv_hiCreate w).imp fun r w₀ hr => ?_
  cases r with
  | error e => trivial
  | ok h =>
    intro ops hmeets
    have hu := (lhiSetSanityCheck_ok (hr h rfl)).1
    refine (runs_calls (R := fun h _ _ => h.tableSize ≠ 0) hu hmeets
      fun op h w _ hu hok => ?_).imp fun r w₁ h₁ => h₁.elim fun _ h₂ => h₂.2
    exact (runs_call_safe hu hok).imp fun _ _ hu' => ⟨trivial, hu'⟩

/-- The call does not ask for the size zero. -/
def TableOp.asksSize : TableOp δ → Bool
  | .rehash n => n ≠ 0
  | .map _ => true

/-- Two keys in one bucket, a rehash to another size that separates them, and one more key. -/
theorem runs_never_divide_by_zero_rehash : ∃ h w₀,
    (hiCreate { hiSetZero with
        tableSize := 1, hashFunc := some ⟨0, lhiHashDumb1⟩, keyCmp := some hiCmpUint16T,
        collEng := .list } : Prog (Except Int (HiHandle String))).run (World.start fun _ _ => 0) =
      .ok (.ok h, w₀) ∧
    Runs (· ≠ .divByZero)
      (Prog.calls TableOp.call [.map (.insert ⟨[1, 0], by decide⟩ "one"),
        .map (.insert ⟨[2, 0], by decide⟩ "two"), .rehash 4, .map (.get ⟨[2, 0], by decide⟩),
        .map (.insert ⟨[3, 0], by decide⟩ "three")] h) w₀
      fun r _ => r.2.tableSize ≠ 0 := by
  have hsafe := runs_never_divide_by_zero (δ := String) { hiSetZero with
    tableSize := 1, hashFunc := some ⟨0, lhiHashDumb1⟩, keyCmp := some hiCmpUint16T,
    collEng := .list } (World.start fun _ _ => 0)
  obtain ⟨h, w₀, hcreate, hmet⟩ : ∃ (h : HiHandle String) (w₀ : World),
      (hiCreate { hiSetZero with
        tableSize := 1, hashFunc := some ⟨0, lhiHashDumb1⟩, keyCmp := some hiCmpUint16T,
        collEng := .list } : Prog (Except Int (HiHandle String))).run (World.start fun _ _ => 0) =
        .ok (.ok h, w₀) ∧
      Prog.met TableOp.call Machine.any (fun _ h _ op => h.rehashAuto = 0 && op.asksSize)
        [.map (.insert ⟨[1, 0], by decide⟩ "one"), .map (.insert ⟨[2, 0], by decide⟩ "two"),
          .rehash 4, .map (.get ⟨[2, 0], by decide⟩), .map (.insert ⟨[3, 0], by decide⟩ "three")]
        () h w₀ = true := ⟨_, _, rfl, rfl⟩
  refine ⟨h, w₀, hcreate, (hsafe.of_run hcreate) _ (.of_met (fun _ h w op _ hok => ?_) hmet)⟩
  rw [Bool.and_eq_true, decide_eq_true_eq] at hok
  cases op with
  | map op =>
    cases op with
    | insert k d => exact fun hdue => (hdue.1 hok.1).elim
    | get k => trivial
    | remove k => trivial
  | rehash n => exact .inl (of_decide_eq_true hok.2)

end Hashish
