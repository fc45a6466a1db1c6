import Hashish.ArrayCorrectness
import Hashish.LockCalls
import Hashish.TableSize

/-!
# The locks of the operations

What an operation does with the locks is put together from the functions of the engine, and may
depend on the memory it gets.

* `unlocks_lhiInsertArray`: an insertion into an array table, if there is memory for the key.
* `unlocks_hiCreate`: creation, if the locks of the trees can be initialised.
* `unlocks_hiRehash`: rehashing a table that is no array.
-/

namespace Hashish

open Hashish.Lib

variable {α δ : Type} {w w' : World} {h : HiHandle δ} {key : Bytes} {keylen : UInt32}

/-! ## Allocation -/

/-- Either one of `c` requests was refused, which is an error, or all of them were served. -/
def Allots (c : Nat) (w : World) (r : Except Int α) (w' : World) : Prop :=
  (∃ e, r = .error e ∧ ∃ m < c, w.Refused m w') ∨ (∃ a, r = .ok a ∧ w.Served c w')

theorem allots_error {m c : Nat} {e : Int} (hm : m < c) (hr : w.Refused m w') :
    Allots c w (.error e : Except Int α) w' :=
  .inl ⟨e, rfl, m, hm, hr⟩

/-- After `c` requests that were served. -/
theorem Allots.add {c d : Nat} {r : Except Int α} {w₁ : World} (h : Allots d w₁ r w')
    (hs : w.Served c w₁) (hw : w ≤ w₁) : Allots (c + d) w r w' := by
  rcases h with ⟨e, rfl, m, hm, hr⟩ | ⟨a, rfl, hr⟩
  · exact allots_error (Nat.add_lt_add_left hm c) (hs.refused hw hr)
  · exact .inr ⟨a, rfl, hs.trans hw hr⟩

theorem allots_xallocAlign : Partial xallocAlign w (Allots 1 w) :=
  runs_xallocAlign_refused (fun _ _ _ hr _ => allots_error Nat.zero_lt_one hr)
    fun _ _ _ hreq hblock _ => .inr ⟨_, rfl, .one hreq hblock⟩

theorem allots_lockInit : Partial lhiPthreadLockInit w (Allots 2 w) :=
  runs_lhiPthreadLockInit_refused (fun _ _ _ hm _ hr => allots_error hm hr)
    fun _ _ _ hs _ => .inr ⟨_, rfl, hs⟩

theorem allots_vanilla : Partial lhiCreateVanillaHdnl w (Allots 1 w) := by
  refine Runs.bind allots_xallocAlign fun r w₁ _ h₁ => ?_
  rcases h₁ with ⟨e, rfl, m, hm, hr⟩ | ⟨fresh, rfl, hs⟩
  · exact allots_error hm hr
  · exact .inr ⟨_, rfl, hs⟩

/-! ## Array tables -/

/-- The engines of `hi_array.c`. -/
def arrayEngine (e : CollEng) : Prop :=
  match e with
  | .array | .arrayHash | .arrayDyn | .arrayDynHash => True
  | _ => False

/-- `hi_lookup` does not search an array table. -/
theorem hiLookup_array (ha : arrayEngine h.collEng) : hiLookup h key keylen = pure failure := by
  unfold hiLookup
  revert ha
  cases h.collEng <;> first | exact fun _ => rfl | exact False.elim

theorem engineInsert_array (ha : arrayEngine h.collEng) {data : δ} :
    engineInsert h key keylen data = lhiInsertArray h key keylen data := by
  unfold engineInsert
  revert ha
  cases h.collEng <;> first | exact fun _ => rfl | exact False.elim

theorem getNextBucket_array (ha : arrayEngine h.collEng) {err : Int} {i : HiIterator δ} :
    getNextBucket err h i =
      getNextLoop lhiArrayBucketToArray h (h.tableSize.toNat - i.bucket) i := by
  unfold getNextBucket
  revert ha
  cases h.collEng <;> first | exact fun _ => rfl | exact False.elim

theorem createEng_arrayEngine (ha : arrayEngine h.collEng) : createEng h = lhiCreateEngArray h := by
  unfold createEng
  revert ha
  cases h.collEng <;> first | exact fun _ => rfl | exact False.elim

/-- The slots of a bucket that was doubled. -/
def grownSlots (cells : List (HiBucketAObj δ)) (slotMax : UInt32) : List (HiBucketAObj δ) :=
  let n := (slotMax <<< 1).toNat
  markFree (cells.take n ++ List.replicate (n - cells.length) ⟨none, none⟩) slotMax.toNat n

/-- Unless the bucket has no slot for it, the copy of a new key gets its memory. -/
def HiHandle.KeyServed (h : HiHandle δ) (w : World) (k : Key) : Prop :=
  ∀ n m slots, h.bucketArraySlotSize.cells[h.toUserSettings.bucket k]? = some n →
    h.bucketArraySlotMax.cells[h.toUserSettings.bucket k]? = some m →
    h.bucketArray.cells[h.toUserSettings.bucket k]? = some slots →
    (n < m → HasFree slots.cells → w.Serves 1) ∧
    (m ≤ n → HasFree (grownSlots slots.cells m) → w.Serves 1 → w.Serves 2)

/-- `lhi_get_array` finds the key. -/
def HiHandle.FindsSlot (h : HiHandle δ) (w : World) (k : Key) : Prop :=
  Partial (lhiGetArray h k.bytes k.keylen) w fun r _ => r.status = success

theorem partial_growBucket {k : Key} (hs : h.KeyServed w k) :
    Partial (h.growBucket (h.toUserSettings.bucket k)) w fun r w' => r.2 = true →
      ∀ slots, r.1.bucketArray.cells[h.toUserSettings.bucket k]? = some slots →
        HasFree slots.cells → w'.Serves 1 := by
  refine silent_load.partial_bind fun n hn => silent_load.partial_bind fun m hm => ?_
  refine runs_ite.mpr ⟨fun hnm => ?_, fun hnm _ slots hslots => ?_⟩
  swap
  · exact (hs n m slots hn hm hslots).1 (UInt32.not_le.mp hnm)
  refine silent_store.partial_bind fun maxs _ => silent_load.partial_bind fun slots hslots => ?_
  have hgrown := (hs n m slots hn hm hslots).2 hnm
  have hrealloc : Partial (reallocSlots slots (m <<< 1).toNat) w fun r w' => ∀ slots', r = some slots' →
      w.Served 1 w' ∧ slots'.cells = slots.cells.take (m <<< 1).toNat ++
        List.replicate ((m <<< 1).toNat - slots.cells.length) ⟨none, none⟩ := by
    unfold reallocSlots realloc
    refine runs_bind.mpr (runs_bind.mpr (runs_malloc_refused (fun _ _ _ => nofun) ?_))
    intro junk w₁ _ hreq hblock _
    refine runs_bind.mpr (runs_free fun w₂ _ hreq₂ => ?_)
    rintro slots' ⟨⟩
    exact ⟨(World.Served.one hreq hblock).after hreq₂, rfl⟩
  refine Runs.bind hrealloc fun r w₁ hw₁ h₁ => ?_
  cases r with
  | none => exact silent_store.partial_bind fun _ _ => nofun
  | some slots' =>
    obtain ⟨hserved, hcells⟩ := h₁ slots' rfl
    refine silent_store.partial_bind fun array harray _ s hcell hfree => ?_
    obtain ⟨hlt, rfl⟩ := harray
    rw [List.getElem?_set_self hlt] at hcell
    cases hcell
    rw [hcells] at hfree
    exact (hserved.serves_add hw₁).mp (hgrown hfree hserved.serves)

/-- Looking for a slot makes no requests. -/
theorem requests_lhiGetArray :
    Partial (lhiGetArray h key keylen) w fun _ w' => w'.requests = w.requests := by
  refine silent_bucketOf.partial_bind fun bucket _ => ?_
  split
  · refine runs_bind.mpr (runs_mutexLock.mpr (silent_scanBucket.partial_bind fun r _ => ?_))
    cases r <;> exact runs_bind.mpr (runs_mutexUnlock.mpr rfl)
  all_goals rfl

/-- An insertion into an array table unlocks the mutex if there is memory for the key. -/
theorem unlocks_lhiInsertArray {k : Key} {d : δ} (hw : w.held = some [])
    (hs : h.FindsSlot w k ∨ h.KeyServed w k) :
    Partial (lhiInsertArray h k.bytes k.keylen d) w fun r w' =>
      w'.held = some [] ∧ Kin h r.2 := by
  refine silent_bucketOf.partial_bind fun b hb => ?_
  subst hb
  have hget : Partial (lhiGetArray h k.bytes k.keylen) w fun r w' => w'.held = some [] ∧
      w'.requests = w.requests ∧ (h.FindsSlot w k → r.status = success) := by
    refine partial_iff.mpr fun r w' hrun => ⟨?_, requests_lhiGetArray.of_run hrun, fun hf => ?_⟩
    · exact ((locks_lhiGetArray w hw).of_run hrun).1
    · exact hf.of_run hrun
  refine Runs.bind hget fun found w₁ hw₁ h₁ => ?_
  obtain ⟨hheld, hreq, hfound⟩ := h₁
  refine runs_ite.mpr ⟨fun _ => ⟨hheld, rfl, rfl⟩, fun hne => ?_⟩
  have hserved : h.KeyServed (w₁.log (.lock h.mutexLock)) k := by
    have hserved := hs.resolve_left fun hf => hne (hfound hf)
    have hof : ∀ n, (w₁.log (.lock h.mutexLock)).Serves n ↔ w.Serves n := fun n =>
      World.Serves.of_requests (hw₁.trans (World.le_log _ _)) hreq
    intro n m slots hn hm hslots
    rw [hof, hof]
    exact hserved n m slots hn hm hslots
  have hlocked : (w₁.log (.lock h.mutexLock)).held = some [.mutex h.mutexLock] :=
    (locks_mutexLock w₁ hheld).1
  refine runs_bind.mpr (runs_mutexLock.mpr ?_)
  refine Runs.bind ((quiet_growBucket.locks _ hlocked).and_returned (partial_growBucket hserved)) ?_
  intro r w₂ _ h₂
  obtain ⟨h₂, grown⟩ := r
  obtain ⟨⟨hheld₂, hk⟩, hfree⟩ := h₂
  dsimp only at hk hfree ⊢
  rw [← hk.2] at hheld₂
  have hunlock : ∀ {r : Int × HiHandle δ} {m : Option Ptr}, Kin h r.2 → Locks (do
      lhiPthreadMutexUnlock m
      pure r) [.mutex m] [] fun r => Kin h r.2 :=
    fun hk => locks_mutexUnlock.seq fun _ => .pure hk
  cases grown with
  | false => exact hunlock hk w₂ hheld₂
  | true =>
    refine silent_load.partial_bind fun max _ => silent_firstFree.partial_bind fun i hi => ?_
    cases i with
    | none => exact hunlock hk w₂ hheld₂
    | some i =>
      obtain ⟨slots, hslots, hany⟩ := hi.resolve_left nofun
      have hone : w₂.Serves 1 := hfree rfl slots hslots hany
      refine Runs.bind ((quiet_xallocAlign.locks w₂ hheld₂).and_returned allots_xallocAlign) ?_
      intro r w₃ _ h₃
      obtain ⟨⟨hheld₃, -⟩, ⟨e, rfl, m, hlt, hr⟩ | ⟨dupkey, rfl, -⟩⟩ := h₃
      · exact (hr.not_serves hlt hone).elim
      · suffices hrest : Locks _ [.mutex h₂.mutexLock] [] _ from hrest w₃ hheld₃
        refine quiet_memcpy.locks_seq fun _ => quiet_setSlot.locks_bind fun h' hk' => ?_
        rw [← hk'.2]
        exact quiet_load.locks_seq fun _ => quiet_store.locks_seq fun _ => hunlock (hk.trans hk')

/-! ## Operations -/

section Operations

variable {data : δ} {n : UInt32}

theorem locks_hiLookup : Locks (hiLookup h key keylen) [] [] fun _ => True := by
  unfold hiLookup
  cases h.collEng
  case list | listHash | listMtf | listMtfHash =>
    exact locks_mutexLock.seq fun _ => quiet_lhiLookupList.locks_seq fun _ => locks_mutexUnlock.seq
      fun _ => .pure trivial
  all_goals exact .pure trivial

theorem locks_hiGet (he : h.collEng ≠ .listMtf) :
    Locks (hiGet h key keylen) [] [] fun r => Kin h r.2 := by
  have hlist : Locks (lhiGetList h key keylen) [] [] fun r => Kin h r.2 := locks_lhiGetList he
  unfold hiGet
  cases h.collEng
  case list | listHash | listMtf | listMtfHash => exact hlist
  case array | arrayHash | arrayDyn | arrayDynHash =>
    exact locks_lhiGetArray.seq fun _ => .pure ⟨rfl, rfl⟩
  case rbtree => exact locks_lhiGetRbtree.seq fun _ => .pure ⟨rfl, rfl⟩
  case unset | max => exact .pure ⟨rfl, rfl⟩

theorem locks_hiRemove : Locks (hiRemove h key keylen) [] [] fun r => Kin h r.2 := by
  unfold hiRemove
  cases h.collEng
  case list | listHash | listMtf | listMtfHash => exact guarded_lhiRemoveList.locks
  case array | arrayHash | arrayDyn | arrayDynHash => exact locks_lhiRemoveArray
  case rbtree => exact locks_lhiRemoveRbtree
  case unset | max => exact .pure ⟨rfl, rfl⟩

theorem locks_engineInsert (ha : ¬ arrayEngine h.collEng) :
    Locks (engineInsert h key keylen data) [] [] fun r => Kin h r.2 := by
  unfold engineInsert
  revert ha
  cases h.collEng <;> intro ha
  case list | listHash | listMtf | listMtfHash => exact guarded_lhiInsertList.locks
  case array | arrayHash | arrayDyn | arrayDynHash => exact (ha trivial).elim
  case rbtree => exact locks_lhiInsertRbtree
  case unset | max => exact .pure ⟨rfl, rfl⟩

/-- Array tables lock the mutex twice. -/
theorem locks_lhiFiniInternal (ha : ¬ arrayEngine h.collEng) (hu : h.collEng ≠ .unset)
    (hm : h.collEng ≠ .max) : Locks (lhiFiniInternal h) [] [] fun _ => True := by
  have hfinish : ∀ r : Int × HiHandle δ, r.2.mutexLock = h.mutexLock →
      Locks (finishFini r.2) [.mutex h.mutexLock] [] fun _ => True := fun r hr =>
    hr ▸ locks_mutexUnlock.seq fun _ => quiet_lockDestroy.locks_seq fun _ =>
      quiet_free.locks_seq fun _ => .pure trivial
  unfold lhiFiniInternal
  refine locks_mutexLock.seq fun _ => ?_
  revert ha hu hm
  cases h.collEng <;> intro ha hu hm
  case list | listHash | listMtf | listMtfHash => exact quiet_lhiFiniList.locks_bind hfinish
  case array | arrayHash | arrayDyn | arrayDynHash => exact (ha trivial).elim
  case rbtree => exact (locks_lhiFiniRbtree (by simp)).bind hfinish
  case unset => exact (hu rfl).elim
  case max => exact (hm rfl).elim

theorem locks_hiFini (ha : ¬ arrayEngine h.collEng) (hu : h.collEng ≠ .unset)
    (hm : h.collEng ≠ .max) : Locks (hiFini h) [] [] fun _ => True := by
  refine (locks_lhiFiniInternal ha hu hm).seq fun r => ?_
  obtain ⟨ret, h'⟩ := r
  dsimp only
  split
  · exact quiet_free.locks_seq fun _ => .pure trivial
  · exact .pure trivial

/-! ## Creation -/

theorem quiet_lhiCreateVanillaHdnl : Quiet lhiCreateVanillaHdnl fun _ => True := by
  refine quiet_xallocAlign.seq fun r => ?_
  cases r <;> exact .pure trivial

/-- Once the table of the trees is there, their locks can be initialised, of which each takes two
requests. `c` requests come first. -/
def LocksReady (u : UserSettings) (c : Nat) (w : World) : Prop :=
  u.collEng = .rbtree → w.Serves c → w.Serves (c + 2 * u.tableSize.toNat)

/-- After `c` requests that were served. -/
theorem LocksReady.after {u : UserSettings} {c d : Nat} (h : LocksReady u (c + d) w)
    (hs : w.Served c w') (hw : w ≤ w') : LocksReady u d w' := by
  intro he hd
  have hall := h he ((hs.serves_add hw).mpr hd)
  rw [Nat.add_assoc] at hall
  exact (hs.serves_add hw).mp hall

theorem unlocks_createWith {u : UserSettings} {self : Ptr} (hw : w.held = some [])
    (hready : LocksReady u 4 w) :
    Partial (createWith u self : Prog (Except Int (HiHandle δ))) w fun r w' =>
      w'.held = some [] ∧ ∀ h, r = .ok h → h.toUserSettings = u := by
  suffices hheld : Partial (createWith u self : Prog (Except Int (HiHandle δ))) w fun _ w' =>
      w'.held = some [] from
    hheld.and_returned ((noDiv_createWith w).mono_fault fun _ _ => trivial)
  refine Runs.bind ((quiet_xallocAlign.locks w hw).and_returned allots_xallocAlign)
    fun r w₁ hw₁ h₁ => ?_
  obtain ⟨⟨hheld₁, -⟩, ⟨e, rfl, -⟩ | ⟨sizes, rfl, hs₁⟩⟩ := h₁
  · exact hheld₁
  refine Runs.bind ((quiet_lockInit.locks w₁ hheld₁).and_returned allots_lockInit) fun r w₂ hw₂ h₂ => ?_
  obtain ⟨⟨hheld₂, -⟩, ⟨e, rfl, -⟩ | ⟨lock, rfl, hs₂⟩⟩ := h₂
  · exact hheld₂
  have hready₂ : LocksReady u 1 w₂ := hready.after (hs₁.trans hw₁ hs₂) (hw₁.trans hw₂)
  show Partial (createEng (HiHandle.ofSettings u self sizes lock : HiHandle δ)) w₂ _
  have htrees := partial_lhiCreateEngRbtree (h := (HiHandle.ofSettings u self sizes lock : HiHandle δ))
    hheld₂
  unfold createEng
  have hsame : (HiHandle.ofSettings u self sizes lock : HiHandle δ).collEng = u.collEng := rfl
  rw [hsame]
  cases he : u.collEng
  case list | listHash | listMtf | listMtfHash => exact quiet_lhiCreateEngList.locks.ends hheld₂
  case array | arrayHash | arrayDyn | arrayDynHash => exact quiet_lhiCreateEngArray.locks.ends hheld₂
  case rbtree => exact htrees (hready₂ he)
  case unset | max => exact hheld₂

/-- Creation keeps to the discipline unless the lock of a tree cannot be initialised. -/
theorem unlocks_hiCreate {s : HiInitSet} (hw : w.held = some [])
    (hready : ∀ u, lhiSetSanityCheck s = .ok u → LocksReady u 5 w) :
    Partial (hiCreate s : Prog (Except Int (HiHandle δ))) w fun r w' =>
      w'.held = some [] ∧ ∀ h, r = .ok h → lhiSetSanityCheck s = .ok h.toUserSettings := by
  refine Runs.bind ((quiet_lhiCreateVanillaHdnl.locks w hw).and_returned allots_vanilla) ?_
  intro r w₁ hw₁ h₁
  obtain ⟨⟨hheld₁, -⟩, ⟨e, rfl, -⟩ | ⟨self, rfl, hs₁⟩⟩ := h₁
  · exact ⟨hheld₁, by simp⟩
  cases hs : lhiSetSanityCheck s with
  | error e => exact ⟨hheld₁, by simp⟩
  | ok u =>
    refine (unlocks_createWith hheld₁ ((hready u hs).after hs₁ hw₁)).imp fun r w' h' => ?_
    exact ⟨h'.1, fun h he => congrArg _ (h'.2 h he).symm⟩

/-! ## Rehashing -/

/-- An insertion into a table that does not rehash by itself. -/
theorem locks_hiInsertWith {rehash : HiHandle δ → UInt32 → Prog (Int × HiHandle δ)}
    (ha : ¬ arrayEngine h.collEng) (hauto : h.rehashAuto = 0) :
    Locks (hiInsertWith rehash h key keylen data) [] [] fun r => Kin h r.2 := by
  refine locks_hiLookup.seq fun found => ?_
  split
  · exact .pure ⟨rfl, rfl⟩
  rw [doRehash, if_pos hauto]
  refine Locks.bind (P := (· = h)) (.pure rfl) fun h' hh => ?_
  subst hh
  exact locks_engineInsert ha

theorem locks_rehashLoop {new : HiHandle δ} {fuel : Nat} {i : HiIterator δ}
    (ha : ¬ arrayEngine new.collEng) (hu : new.collEng ≠ .unset) (hm : new.collEng ≠ .max)
    (hauto : new.rehashAuto = 0) :
    Locks (rehashLoop h fuel i new) [] [] fun r =>
      ∀ new', r.2.2 = some new' → new'.collEng = new.collEng := by
  induction fuel generalizing i new with
  | zero => exact .fault
  | succ fuel ih =>
    refine locks_hiIteratorGetnext.seq fun r => ?_
    obtain ⟨ret, next, i⟩ := r
    cases next with
    | none =>
      refine .pure fun new' he => ?_
      cases he
      rfl
    | some item =>
      refine (locks_hiInsertWith ha hauto).bind fun r hr => ?_
      obtain ⟨ret, new'⟩ := r
      have heng : new'.collEng = new.collEng := congrArg UserSettings.collEng hr.1
      have hauto' : new'.rehashAuto = new.rehashAuto := congrArg UserSettings.rehashAuto hr.1
      dsimp only
      rw [← heng] at ha hu hm ⊢
      split
      · refine quiet_hiIteratorFini.locks_seq fun _ => (locks_hiFini ha hu hm).seq fun fini => ?_
        split
        · exact (quiet_event rfl).locks_seq fun _ => .pure (by simp)
        · exact .pure (by simp)
      · exact ih ha hu hm (hauto'.trans hauto)

/-- Rehashing a table that is no array. -/
theorem unlocks_hiRehash (ha : ¬ arrayEngine h.collEng) (hu : h.collEng ≠ .unset)
    (hm : h.collEng ≠ .max) (hw : w.held = some [])
    (hready : LocksReady { h.toUserSettings with tableSize := n } 5 w) :
    Partial (hiRehash h n) w fun r w' => w'.held = some [] ∧ r.2.collEng = h.collEng := by
  refine Runs.bind ((quiet_lhiCreateVanillaHdnl.locks w hw).and_returned allots_vanilla) ?_
  intro r w₁ hw₁ h₁
  obtain ⟨⟨hheld₁, -⟩, ⟨e, rfl, -⟩ | ⟨self, rfl, hs₁⟩⟩ := h₁
  · exact ⟨hheld₁, rfl⟩
  refine Runs.bind (unlocks_createWith hheld₁ (hready.after hs₁ hw₁)) fun r w₂ hw₂ h₂ => ?_
  obtain ⟨hheld₂, hset⟩ := h₂
  cases r with
  | error e => exact ⟨hheld₂, rfl⟩
  | ok new =>
  have heng : { new with rehashAuto := 0 }.collEng = h.collEng :=
    (congrArg UserSettings.collEng (hset new rfl) :)
  suffices hrest : Locks _ [] [] _ from hrest w₂ hheld₂
  refine locks_hiIteratorCreate.seq fun i => ?_
  cases i with
  | error e => exact .pure rfl
  | ok i =>
  refine (locks_rehashLoop (heng ▸ ha) (heng ▸ hu) (heng ▸ hm) rfl).bind fun r hr => ?_
  obtain ⟨ret, i, rebuilt⟩ := r
  cases rebuilt with
  | none => exact .pure rfl
  | some new' =>
    refine quiet_hiIteratorFini.locks_seq fun _ => ?_
    split
    · exact .pure rfl
    · exact (locks_lhiFiniInternal ha hu hm).seq fun _ => .pure ((hr new' rfl).trans heng)

end Operations

end Hashish
