import Hashish.ArrayHoles
import Hashish.LockDiscipline
import Hashish.RehashCorrectness

/-!
# The ledger of a handle

The blocks a handle owns, from `hi_create` to `hi_fini`, all allocations succeeding.

* `Owns h w L`: the handle is laid out in memory, and `L` are its blocks and those of its
  entries.
* `Owns.runs_call`: a call that does not rehash and loses no bucket books its blocks.
* `ledger_empty_iff`: after such calls `hi_fini` empties the ledger, unless a tree still holds
  an entry.
* `fini_leaves_blocks`: a tree with an entry, a rehashed list table, and a list table whose mutex was
  unlocked once too often.
-/

namespace Hashish

open Hashish.Lib

variable {δ : Type} {w w' : World} {h : HiHandle δ} {L : List Ptr} {k : Key} {d : δ}

/-- The handle owns the blocks `L`. -/
def Owns (h : HiHandle δ) (w : World) (L : List Ptr) : Prop :=
  (plainList h.collEng ∧ ∃ os, ListRep h w os ∧ L = listBlocks h os) ∨
  (h.collEng = .rbtree ∧ ∃ ts, RbRep h w ts ∧ L = entryBlocks ts ++ treeBlocks h) ∨
  (h.collEng = .array ∧ ∃ bs, ArrayRep h bs ∧ L = keyBlocks bs ++ arrayBlocks h)

/-- From `w` to `w'` the blocks of the handle `h` became those of `h'`. -/
def Keeps (w : World) (h : HiHandle δ) (L : List Ptr) (h' : HiHandle δ) (w' : World) : Prop :=
  h'.toUserSettings = h.toUserSettings ∧ ∃ L', Owns h' w' L' ∧ w.Books w' L L'

/-- The condition on a call: it does not rehash, be it explicitly or before an insertion, it does not
insert a new key into a full array bucket whose slots cannot be counted twice over, and it does not
look for a key with `COLL_ENG_LIST_MTF`, which unlocks a mutex that is not locked. -/
def LedgerSafe (h : HiHandle δ) (w : World) (op : TableOp δ) : Prop :=
  match op with
  | .map (.insert k _) => (h.Due → h.Finds w k) ∧
      (h.collEng = .array → h.HasRoom k ∨ h.CanDoubleSlots k ∨ h.Has w k)
  | .map (.get _) => h.collEng ≠ .listMtf
  | .map (.remove _) => True
  | .rehash _ => False

namespace Owns

theorem mono (ho : Owns h w L) (hw : w ≤ w') : Owns h w' L := by
  rcases ho with ⟨he, os, hr, hL⟩ | ⟨he, ts, hr, hL⟩ | ho
  · exact .inl ⟨he, os, hr.mono hw, hL⟩
  · exact .inr (.inl ⟨he, ts, hr.mono hw, hL⟩)
  · exact .inr (.inr ho)

/-- The handle stays as it is, and nothing is taken or given back. -/
theorem keeps (ho : Owns h w L) (hw : w ≤ w') (hm : w'.moves = w.moves) : Keeps w h L h w' :=
  ⟨rfl, L, ho.mono hw, .of_perm hm (.refl _)⟩

/-! ## Calls -/

section Calls

variable (ho : Owns h w L) (hu : h.tableSize ≠ 0)
include ho hu

theorem runs_hiGet : Total (hiGet h k.bytes k.keylen) w fun r w' => Keeps w h L r.2 w' := by
  unfold hiGet
  rcases ho with ⟨he, os, hr, rfl⟩ | ⟨he, ts, hr, rfl⟩ | ⟨he, bs, hr, rfl⟩
  · obtain ⟨l, hb⟩ := hr.exists_bucket hu k
    have hlog := w.le_log (.lock h.mutexLock)
    unfold lhiGetList
    rcases he with he | he
    · have howns : ∀ w', w.log (.lock h.mutexLock) ≤ w' →
          w'.moves = (w.log (.lock h.mutexLock)).moves → Keeps w h (listBlocks h os) h w' :=
        fun w' hw hm => keeps (.inl ⟨.inl he, os, hr, rfl⟩) (hlog.trans hw) (by simpa using hm)
      simp only [he, runs_bind, runs_bucketOf hu, runs_mutexLock]
      exact (hr.mono hlog).runs_getHit hb keyHit_eq (fun _ w' hw _ hm => howns w' hw hm)
        fun _ _ _ w' _ _ _ hw _ hm => howns w' hw hm
    · simp only [he, runs_bind, runs_bucketOf hu]
      refine hr.runs_getHitMtf hb keyHit_eq (fun _ w' hw _ hm => ?_) ?_
      · exact keeps (.inl ⟨.inr he, os, hr, rfl⟩) hw hm
      · rintro l₁ x l₂ h' w' rfl - - hr' hu' - - hbooks
        have he' : h'.collEng = .listMtf := (congrArg UserSettings.collEng hu' :).trans he
        exact ⟨hu', _, .inl ⟨.inr he', _, hr', rfl⟩, hbooks⟩
  · obtain ⟨t, hb⟩ := hr.exists_tree hu k
    simp only [he, runs_bind]
    have howns : Owns h w (entryBlocks ts ++ treeBlocks h) := .inr (.inl ⟨he, ts, hr, rfl⟩)
    exact hr.runs_lhiGetRbtree hu hb (fun _ w' _ _ hw hm => howns.keeps hw hm)
      fun _ _ _ _ _ w' _ _ _ hw hm => howns.keeps hw hm
  · obtain ⟨l, hb⟩ := hr.exists_bucket hu k
    simp only [he, runs_bind]
    refine (hr.runs_lhiGetArray he hu hb).and_grows.imp fun r w' h' => ?_
    exact keeps (.inr (.inr ⟨he, bs, hr, rfl⟩)) h'.1 h'.2.2.2

theorem runs_hiRemove : Total (hiRemove h k.bytes k.keylen) w fun r w' => Keeps w h L r.2 w' := by
  unfold hiRemove
  rcases ho with ⟨he, os, hr, rfl⟩ | ⟨he, ts, hr, rfl⟩ | ⟨he, bs, hr, rfl⟩
  · obtain ⟨l, hb⟩ := hr.exists_bucket hu k
    have hlog := w.le_log (.lock h.mutexLock)
    have hlogged : w.Books (w.log (.lock h.mutexLock)) (listBlocks h os) (listBlocks h os) :=
      .of_perm (by simp) (.refl _)
    have hremove : Total (h.removeHit (h.toUserSettings.bucket k) (h.keyHit k.bytes))
        (w.log (.lock h.mutexLock)) fun r w' => Keeps w h (listBlocks h os) r.2 w' := by
      refine (hr.mono hlog).runs_removeHit hb keyHit_eq (fun _ w' hw _ hm => ?_) ?_
      · exact keeps (.inl ⟨he, os, hr, rfl⟩) (hlog.trans hw) (by simpa using hm)
      · intro l₁ x l₂ h' w' _ _ _ hr' hu' _ _ hbooks
        have he' : h'.collEng = h.collEng := congrArg UserSettings.collEng hu'
        exact ⟨hu', _, .inl ⟨he' ▸ he, _, hr', rfl⟩, hlogged.trans hbooks⟩
    unfold lhiRemoveList
    rcases he with he | he <;>
    · simp only [he, runs_bind, runs_mutexLock, runs_bucketOf hu]
      exact hremove
  · obtain ⟨t, hb⟩ := hr.exists_tree hu k
    simp only [he]
    refine hr.runs_lhiRemoveRbtree hu hb (fun _ w' _ _ hw hm => ?_) ?_
    · exact keeps (.inr (.inl ⟨he, ts, hr, rfl⟩)) hw hm
    · intro _ _ _ _ _ t' h' w' _ _ _ _ hr' hu' _ hbooks
      have he' : h'.collEng = h.collEng := congrArg UserSettings.collEng hu'
      exact ⟨hu', _, .inr (.inl ⟨he'.trans he, _, hr', rfl⟩), hbooks⟩
  · obtain ⟨l, hb⟩ := hr.exists_bucket hu k
    simp only [he]
    refine hr.runs_lhiRemoveArray he hu hb (fun _ w' hw hm => ?_) ?_
    · exact keeps (.inr (.inr ⟨he, bs, hr, rfl⟩)) hw hm
    · rintro p x q h' w' rfl - hr' hu' - hbooks
      have he' : h'.collEng = h.collEng := congrArg UserSettings.collEng hu'
      refine ⟨hu', _, .inr (.inr ⟨he'.trans he, _, hr', rfl⟩), ?_⟩
      have hkeys : (keyBlocks bs).Perm
          (x.keyAddr :: keyBlocks (bs.set (h.toUserSettings.bucket k) (p ++ none :: q))) :=
        (ArrayRep.perm_of_clear hb).map Stored.keyAddr
      refine hbooks.frame ?_ List.perm_append_comm
      exact (hkeys.append_right _).trans (List.perm_append_comm.cons _)

/-- Looking a key up changes no table. -/
theorem runs_hiLookup : Total (hiLookup h k.bytes k.keylen) w fun _ w' => w'.moves = w.moves := by
  unfold hiLookup
  rcases ho with ⟨he, os, hr, rfl⟩ | ⟨he, -⟩ | ⟨he, -⟩
  · obtain ⟨l, hb⟩ := hr.exists_bucket hu k
    have hlook : Total (lhiLookupList h k.bytes k.keylen) (w.log (.lock h.mutexLock))
        fun _ w' => w'.moves = w.moves := by
      unfold lhiLookupList
      refine runs_bind.mpr ((runs_bucketOf hu k).mpr ?_)
      rcases he with he | he <;>
      · simp only [he, runs_bind]
        exact (hr.mono (w.le_log _)).runs_seekBucket hb keyHit_eq (fun _ => by simp)
          fun _ _ _ _ _ _ => by simp
    rcases he with he | he <;>
    · simp only [he, runs_bind, runs_mutexLock]
      exact hlook.imp fun _ w' hm => by simpa using hm
  · simp only [he]
    rfl
  · simp only [he]
    rfl

theorem runs_engineInsert (hw : w.AllocsSucceed)
    (hroom : h.collEng = .array → h.HasRoom k ∨ h.CanDoubleSlots k ∨ ∃ w, h.Has w k) :
    Total (engineInsert h k.bytes k.keylen d) w fun r w' => Keeps w h L r.2 w' := by
  unfold engineInsert
  rcases ho with ⟨he, os, hr, rfl⟩ | ⟨he, ts, hr, rfl⟩ | ⟨he, bs, hr, rfl⟩
  · obtain ⟨l, hb⟩ := hr.exists_bucket hu k
    have hinsert : Total (lhiInsertList h k.bytes k.keylen d) w fun r w' =>
        Keeps w h (listBlocks h os) r.2 w' := by
      refine hr.runs_lhiInsertList hu hb (fun _ _ w' _ _ _ hs => (hs.not_allocsSucceed hw).elim) ?_
      intro x h' w' _ _ _ _ _ hr' hu' _ _ hbooks
      have he' : h'.collEng = h.collEng := congrArg UserSettings.collEng hu'
      exact ⟨hu', _, .inl ⟨he' ▸ he, _, hr', rfl⟩, hbooks⟩
    rcases he with he | he <;>
    · simp only [he]
      exact hinsert
  · obtain ⟨t, hb⟩ := hr.exists_tree hu k
    simp only [he]
    refine hr.runs_lhiInsertRbtree hu hb (fun _ _ _ _ _ w' _ _ _ hw hm => ?_)
      (fun _ _ w' _ _ _ _ hs => (hs.not_allocsSucceed hw).elim) ?_
    · exact keeps (.inr (.inl ⟨he, ts, hr, rfl⟩)) hw hm
    · intro _ x t' h' w' _ _ _ _ _ hr' hu' _ _ hbooks
      have he' : h'.collEng = h.collEng := congrArg UserSettings.collEng hu'
      exact ⟨hu', _, .inr (.inl ⟨he'.trans he, _, hr', rfl⟩), hbooks⟩
  · obtain ⟨l, hb⟩ := hr.exists_bucket hu k
    have hnone : h.keyCmp.find l.reduceOption k = none → ¬ ∃ w, h.Has w k := by
      rintro hn ⟨w, r, w', hrun, hok⟩
      unfold hiGet at hrun
      simp only [he] at hrun
      have hget : Partial (do
          let r ← lhiGetArray h k.bytes k.keylen
          pure (r, h)) w fun r _ => r.1.status = hiErrNokey := by
        refine runs_bind.mpr ((hr.runs_lhiGetArray he hu hb).imp fun r w' h' => ?_)
        rw [runs_pure, h'.1, hn]
        rfl
      exact absurd (show success = hiErrNokey from hok.symm.trans (hget.of_run hrun)) (by decide)
    simp only [he]
    refine hr.runs_lhiInsertArray he hu hb (fun _ w' hw hm => ?_)
      (fun _ _ w' _ hs => (hs.not_allocsSucceed hw).elim) ?_
      (fun _ _ _ w' _ _ hs => (hs.not_allocsSucceed hw).elim) ?_
    · exact keeps (.inr (.inr ⟨he, bs, hr, rfl⟩)) hw hm
    · -- No bucket wraps.
      intro hn hno hwrap h' w' _ _ _
      rcases hroom he with hroom | hdouble | hhas
      · exact (hno ((hr.hasRoom_iff hb).mp hroom)).elim
      · exact (Nat.not_lt.mpr hwrap ((hr.canDoubleSlots_iff hb).mp hdouble)).elim
      · exact (hnone hn hhas).elim
    · intro _ x p q n h' w' _ _ _ _ hpq hu' hr' hbooks
      have he' : h'.collEng = h.collEng := congrArg UserSettings.collEng hu'
      refine ⟨hu', _, .inr (.inr ⟨he'.trans he, _, hr', rfl⟩), ?_⟩
      have hkeys : (keyBlocks (bs.set (h.toUserSettings.bucket k) (p ++ some x :: q))).Perm
          (x.keyAddr :: keyBlocks bs) := (ArrayRep.perm_of_fill hb hpq).map Stored.keyAddr
      refine hbooks.frame List.perm_append_comm ?_
      exact (List.perm_append_comm.cons _).trans (hkeys.symm.append_right _)

/-- A call that does not rehash and loses no bucket. -/
theorem runs_call (hw : w.AllocsSucceed) {op : TableOp δ} (hop : LedgerSafe h w op) :
    Total (op.call h) w fun r w' => Keeps w h L r.2 w' := by
  rcases op with op | n
  · cases op with
    | get k => exact ho.runs_hiGet hu
    | remove k => exact ho.runs_hiRemove hu
    | insert k d =>
      obtain ⟨hdue, hroom⟩ := hop
      unfold TableOp.call MapOp.call hiInsert hiInsertWith
      have hfound : Partial (hiLookup h k.bytes k.keylen) w fun ret _ => h.Due → ret = success :=
        partial_iff.mpr fun ret w' hrun hd => (hdue hd).of_run hrun
      refine runs_bind.mpr (Runs.bind ((ho.runs_hiLookup hu).and_returned hfound) ?_)
      intro ret w₁ hw₁ ⟨hm, hret⟩
      have ho₁ := ho.mono hw₁
      refine runs_ite.mpr ⟨fun _ => ho.keeps hw₁ hm, fun hne => ?_⟩
      refine runs_bind.mpr (runs_doRehash hu (fun hd => (hne (hret hd)).elim) fun _ => ?_)
      refine (ho₁.runs_engineInsert hu (hw.mono hw₁) fun he => ?_).imp fun r w₂ h₂ => ?_
      · rcases hroom he with hroom | hdouble | hhas
        · exact .inl hroom
        · exact .inr (.inl hdouble)
        · exact .inr (.inr ⟨w, hhas⟩)
      · obtain ⟨hset, L', ho', hbooks⟩ := h₂
        exact ⟨hset, L', ho', .trans (.of_perm hm (.refl _)) hbooks⟩
  · exact hop.elim

end Calls

/-! ## The end of a table -/

/-- The end of `lhi_fini_internal`, when only the blocks `M` are left beside those that do not
depend on the engine, and nobody else uses the mutex. -/
theorem runs_finishFini {w₁ : World} {h₁ : HiHandle δ} {M : List Ptr}
    (hbooks : w.Books w₁ L (M ++ h.baseBlocks)) (hsize : h₁.bucketSize.addr = h.bucketSize.addr)
    (hlock : h₁.mutexLock = h.mutexLock)
    (hidle : users (.mutex h.mutexLock) (w₁.lockMoves ++ [.release (.mutex h.mutexLock)]) = 0)
    {Q : Int × HiHandle δ → World → Prop}
    (hQ : ∀ r w', r.1 = 0 → w.Books w' L (M ++ [h.self]) → Q r w') :
    Total (finishFini h₁) w₁ Q := by
  unfold finishFini
  refine runs_bind.mpr (runs_mutexUnlock.mpr (runs_bind.mpr (runs_lockDestroy ?_)))
  intro r w₂ _ _ _ hm₂
  refine runs_bind.mpr (runs_free_moves fun w₃ _ _ hm₃ => ?_)
  rw [hlock, World.log_lockMoves, World.log_moves, Event.move?, Option.toList_none,
    List.append_nil] at hm₂
  rw [hsize] at hm₃
  refine hQ _ w₃ rfl (hbooks.trans ?_)
  exact .trans (.gives (hm₂ hidle) (List.perm_append_comm_assoc _ _ _))
    (.gives hm₃ (List.perm_append_comm_assoc _ _ _))

/-- The blocks that `lhi_fini_internal` leaves when no lock is held. -/
theorem runs_lhiFiniInternal (ho : Owns h w L) (hheld : w.held = some []) :
    Total (lhiFiniInternal h) w fun r w' => r.1 = 0 ∧ ∃ M, w.Books w' L (M ++ [h.self]) ∧
      (M = [] ↔ (h.collEng = .rbtree → ∀ t ∈ h.trees.cells, t.rbNode = none)) := by
  have hlog := w.le_log (.lock h.mutexLock)
  have hlogged : w.Books (w.log (.lock h.mutexLock)) L L := .of_perm (by simp) (.refl _)
  -- The mutex is released as often as it was acquired.
  have hidle : ∀ ms, users (.mutex h.mutexLock) ms = 0 →
      users (.mutex h.mutexLock) ((w.log (.lock h.mutexLock)).lockMoves ++ ms ++
        [.release (.mutex h.mutexLock)]) = 0 := by
    intro ms hms
    have hpair := users_pair (l := LockName.mutex h.mutexLock) (k := .mutex h.mutexLock)
    rw [show ∀ a b : LockMove LockName, [a, b] = [a] ++ [b] from fun _ _ => rfl, users_append] at hpair
    rw [World.log_lockMoves, users_append, users_append, users_append, hms, World.users_of_held hheld]
    simpa using hpair
  unfold lhiFiniInternal
  refine runs_bind.mpr (runs_mutexLock.mpr ?_)
  rcases ho with ⟨he, os, hr, rfl⟩ | ⟨he, ts, hr, rfl⟩ | ⟨he, bs, hr, rfl⟩
  · have hempty : h.collEng = .rbtree → ∀ t ∈ h.trees.cells, t.rbNode = none := by
      rcases he with he | he <;> simp [he]
    have hfini := ((hr.mono hlog).runs_lhiFiniList (E := fun _ => False) (Q := fun r w' =>
      r.2.bucketSize = h.bucketSize ∧ (w.log (.lock h.mutexLock)).Books w' (listBlocks h os)
        h.baseBlocks) fun objs w₁ _ hbooks => ⟨rfl, hbooks⟩).and_returned (quiet_lhiFiniList _)
    rcases he with he | he <;>
    · simp only [he] at hempty ⊢
      refine Runs.bind hfini ?_
      rintro ⟨ret, h₁⟩ w₁ - ⟨⟨hsize, hbooks⟩, hlocks, hmutex⟩
      refine runs_finishFini (M := []) (hlogged.trans hbooks) (congrArg _ hsize) hmutex ?_
        fun r w' h₀ hleft => ⟨h₀, [], hleft, iff_of_true rfl hempty⟩
      simpa [hlocks] using hidle [] rfl
  · simp only [he]
    refine runs_bind.mpr ((hr.mono hlog).runs_lhiFiniRbtree fun w₁ _ husers hbooks => ?_)
    have hlocks : ∀ m, users (.rwlock m) (w.log (.lock h.mutexLock)).lockMoves = 0 := fun m => by
      rw [World.log_lockMoves, users_append, World.users_of_held hheld]
      simp [users]
    have hleft : w.Books w₁ (entryBlocks ts ++ treeBlocks h) (entryBlocks ts ++ h.baseBlocks) :=
      hlogged.trans ((hbooks hlocks).frame List.perm_append_comm List.perm_append_comm)
    refine runs_finishFini hleft ?_ ?_ ?_ fun r w' h₀ hleft => ⟨h₀, _, hleft, ?_⟩
    · rfl
    · rfl
    · have hnone := hidle [] rfl
      rwa [List.append_nil, users_append, ← husers, ← users_append] at hnone
    · rw [hr.entryBlocks_eq_nil]
      simp
  · simp only [he]
    have hfini := (hr.runs_lhiFiniArray (E := fun _ => False) (w := w.log (.lock h.mutexLock))
      (Q := fun r w' => r.2.bucketSize = h.bucketSize ∧ (w.log (.lock h.mutexLock)).Books w'
        (keyBlocks bs ++ arrayBlocks h) h.baseBlocks)
      fun w₁ _ hbooks => ⟨rfl, hbooks⟩).and_returned (moves_lhiFiniArray _)
    refine Runs.bind hfini ?_
    rintro ⟨ret, h₁⟩ w₁ - ⟨⟨hsize, hbooks⟩, hlocks, hmutex⟩
    refine runs_finishFini (M := []) (hlogged.trans hbooks) (congrArg _ hsize) hmutex ?_
      fun r w' h₀ hleft => ⟨h₀, [], hleft, by simp⟩
    rw [hlocks]
    exact hidle _ users_pair

/-- `hi_fini` releases all blocks but those of the entries of trees. -/
theorem runs_hiFini (ho : Owns h w L) (hheld : w.held = some []) :
    Total (hiFini h) w fun ret w' => ret = success ∧ ∃ M, w.Books w' L M ∧
      (M = [] ↔ (h.collEng = .rbtree → ∀ t ∈ h.trees.cells, t.rbNode = none)) := by
  unfold hiFini
  refine Runs.bind (ho.runs_lhiFiniInternal hheld) fun r w₁ _ h₁ => ?_
  obtain ⟨hret, M, hbooks, hM⟩ := h₁
  refine runs_ite.mpr ⟨fun _ => ?_, fun hne => (hne hret).elim⟩
  exact runs_bind.mpr (runs_free_moves fun w₂ _ _ hm₂ =>
    ⟨hret, M, hbooks.trans (.gives hm₂ List.perm_append_comm), hM⟩)

end Owns

/-! ## Creation -/

/-- From `w` to `w'` a handle was made out of the blocks `B`, unless there was an error. -/
def Made (u : UserSettings) (w : World) (B : List Ptr) (r : Except Int (HiHandle δ)) (w' : World) :
    Prop :=
  ∀ h, r = .ok h → h.toUserSettings = u ∧ ∃ L, Owns h w' L ∧ w.Books w' B L

theorem made_error {u : UserSettings} {B : List Ptr} {e : Int} :
    Made u w B (.error e : Except Int (HiHandle δ)) w' := by
  intro h he
  cases he

theorem made_ok {u : UserSettings} {B : List Ptr} (hu : h.toUserSettings = u) (ho : Owns h w' L)
    (hbooks : w.Books w' B L) : Made u w B (.ok h) w' := by
  rintro h' ⟨⟩
  exact ⟨hu, L, ho, hbooks⟩

theorem made_createEng {u : UserSettings} {p : Ptr} {sizes : Fresh} {lock : Ptr}
    (he : plainEngine u.collEng ∨ (u.collEng = .array ∧ u.collEngArraySize ≠ 0)) :
    Partial (createEng (HiHandle.ofSettings u p sizes lock : HiHandle δ)) w
      (Made u w [lock, sizes.addr, p]) := by
  have hsame : (HiHandle.ofSettings u p sizes lock : HiHandle δ).collEng = u.collEng := rfl
  have heng : ∀ {h' : HiHandle δ}, h'.toUserSettings = u → h'.collEng = u.collEng :=
    fun hu => congrArg UserSettings.collEng hu
  rcases he with (he | he) | ⟨he, hslots⟩
  · have hcreate : Partial (lhiCreateEngList (HiHandle.ofSettings u p sizes lock : HiHandle δ)) w
        (Made u w [lock, sizes.addr, p]) :=
      ListRep.runs_lhiCreateEngList (fun _ _ _ => made_error) fun h' w' _ _ hr hu hbooks =>
        made_ok hu (.inl ⟨(heng hu).symm ▸ he, _, hr, rfl⟩) hbooks
    unfold createEng
    rcases he with he | he <;>
    · simp only [hsame, he]
      exact hcreate
  · have hempty : entryBlocks (δ := δ) (List.replicate u.tableSize.toNat .nil) = [] := by
      simp [entryBlocks, rows, ColorTree.toList]
    unfold createEng
    simp only [hsame, he]
    refine RbRep.runs_lhiCreateEngRbtree (fun _ _ _ => made_error) fun h' w' _ hr hu hbooks => ?_
    refine made_ok hu (.inr (.inl ⟨(heng hu).trans he, _, hr, rfl⟩)) ?_
    rw [hempty]
    exact hbooks
  · have hempty : keyBlocks (δ := δ) (List.replicate u.tableSize.toNat
        (List.replicate u.collEngArraySize.toNat none)) = [] := by
      simp [keyBlocks, arrayContents]
    rw [ArrayRep.createEng_array he]
    refine ArrayRep.runs_lhiCreateEngArray hslots (fun _ _ _ => made_error) ?_
    intro h' w' _ hu hr hbooks
    refine made_ok hu (.inr (.inr ⟨(heng hu).trans he, _, hr, rfl⟩)) ?_
    rw [hempty]
    exact hbooks

theorem made_hiCreate {s : HiInitSet} {u : UserSettings} (hs : lhiSetSanityCheck s = .ok u)
    (he : plainEngine u.collEng ∨ u.collEng = .array) :
    Partial (hiCreate s : Prog (Except Int (HiHandle δ))) w (Made u w []) := by
  unfold hiCreate lhiCreateVanillaHdnl createWith
  rw [hs]
  refine runs_bind.mpr (runs_bind.mpr (runs_xallocAlign_refused (fun _ _ _ _ _ => made_error) ?_))
  intro junk₁ w₁ _ _ _ hm₁
  refine runs_bind.mpr (runs_xallocAlign_refused (fun _ _ _ _ _ => made_error) ?_)
  intro junk₂ w₂ _ _ _ hm₂
  refine runs_bind.mpr (runs_lhiPthreadLockInit (fun _ _ _ _ => made_error) fun lock w₃ _ hm₃ => ?_)
  refine (made_createEng (he.imp_right fun he => ⟨he, lhiSetSanityCheck_slots hs he⟩)).imp ?_
  intro r w₄ h₄ h hr
  obtain ⟨hu, L, ho, hbooks⟩ := h₄ h hr
  refine ⟨hu, L, ho, .trans ?_ hbooks⟩
  exact .trans (.take hm₁) (.trans (.take hm₂) (.take hm₃))

/-! ## Runs -/

/-- The blocks that were taken since `w₀` and not given back are those of the handle. No lock is
held. -/
def Ledgered (u : UserSettings) (w₀ : World) (h : HiHandle δ) (w : World) : Prop :=
  h.toUserSettings = u ∧ w.AllocsSucceed ∧ w.held = some [] ∧ ∃ L, Owns h w L ∧ w₀.Books w [] L

/-- A call that meets the condition releases the locks it takes. -/
theorem LedgerSafe.unlocks {op : TableOp δ} (hop : LedgerSafe h w op)
    (he : plainEngine h.collEng ∨ h.collEng = .array) (hw : w.AllocsSucceed)
    (hheld : w.held = some []) : Partial (op.call h) w fun _ w' => w'.held = some [] := by
  rcases op with op | n
  · cases op with
    | get k => exact (locks_hiGet hop).ends hheld
    | remove k => exact locks_hiRemove.ends hheld
    | insert k d =>
      obtain ⟨hdue, -⟩ := hop
      have hserves : ∀ {w' : World}, w'.AllocsSucceed → ∀ n, w'.Serves n :=
        fun hw' n i _ => hw' _
      have hslot : ∀ {w' : World}, w'.AllocsSucceed → SlotSafe h w' k :=
        fun hw' => .inr fun _ _ _ _ _ _ => ⟨fun _ _ => hserves hw' 1, fun _ _ _ => hserves hw' 2⟩
      have hnoarray : h.Due → ¬ arrayEngine h.collEng := by
        intro hd ha
        have hfound := hdue hd
        unfold HiHandle.Finds hiLookup at hfound
        revert ha hfound
        cases h.collEng <;> intro ha hfound
        case array | arrayHash | arrayDyn | arrayDynHash =>
          exact absurd (show failure = success from hfound) (by decide)
        all_goals exact ha.elim
      have hunset : h.collEng ≠ .unset ∧ h.collEng ≠ .max := by
        rcases he with (he | he) | he
        · rcases he with he | he <;> simp [he]
        · simp [he]
        · simp [he]
      unfold TableOp.call MapOp.call
      refine runs_bind.mpr ((unlocks_hiInsert hunset.1 hunset.2 hheld ⟨fun hd => ?_, fun ha => ?_⟩).imp
        fun _ _ h' => h'.1)
      · exact ⟨fun _ _ => hserves hw _, fun ha => (hnoarray hd ha).elim⟩
      · exact ⟨fun _ => hslot hw, fun hd => (hnoarray hd ha).elim⟩
  · exact hop.elim

theorem Ledgered.runs_calls {u : UserSettings} {w₀ : World} {ops : List (TableOp δ)}
    (hl : Ledgered u w₀ h w) (hu : u.tableSize ≠ 0) (he : plainEngine u.collEng ∨ u.collEng = .array)
    (hsafe : Meets TableOp.call Machine.any (fun _ => LedgerSafe) ops () h w) :
    Total (Prog.calls TableOp.call ops h) w fun r w' => Ledgered u w₀ r.2 w' := by
  refine (Lib.runs_calls (R := fun h w _ => Ledgered u w₀ h w) hl hsafe ?_).imp ?_
  · intro op h w _ hl hop
    obtain ⟨rfl, hw, hheld, L, ho, hbooks⟩ := hl
    refine ((ho.runs_call hu hw hop).and_returned (hop.unlocks he hw hheld)).and_grows.imp
      fun r w' h' => ⟨trivial, ?_⟩
    obtain ⟨hw', ⟨hset, L', ho', hbooks'⟩, hheld'⟩ := h'
    exact ⟨hset, hw.mono hw', hheld', L', ho', hbooks.trans hbooks'⟩
  · rintro r w' ⟨_, -, h'⟩
    exact h'

/-- After calls that neither rehash, nor lose a bucket, nor unlock a mutex that is not locked,
`hi_fini` gives no block back twice, and leaves none behind exactly when no tree holds an entry. -/
theorem ledger_empty_iff {s : HiInitSet} {u : UserSettings} (hs : lhiSetSanityCheck s = .ok u)
    (he : plainEngine u.collEng ∨ u.collEng = .array) {w₀ w₁ : World} (hw : w₀.AllocsSucceed)
    (hheld : w₀.held = some []) {h₀ : HiHandle δ} (hcreate : (hiCreate s).run w₀ = .ok (.ok h₀, w₁))
    {ops : List (TableOp δ)}
    (hsafe : Meets TableOp.call Machine.any (fun _ => LedgerSafe) ops () h₀ w₁) :
    Total (Prog.calls TableOp.call ops h₀) w₁ fun r w => Total (hiFini r.2) w fun ret w' =>
      ret = success ∧ (∃ L, w₀.Books w' [] L) ∧
      (w₀.Books w' [] [] ↔ (u.collEng = .rbtree → ∀ t ∈ r.2.trees.cells, t.rbNode = none)) := by
  obtain ⟨hset, L₀, ho₀, hbooks₀⟩ := (made_hiCreate hs he).of_run hcreate h₀ rfl
  have hheld₁ : w₁.held = some [] :=
    ((unlocks_hiCreate hheld fun _ _ _ _ _ _ => hw _).of_run hcreate).1
  have hstart : Ledgered u w₀ h₀ w₁ :=
    ⟨hset, hw.mono ((hiCreate s).grows hcreate), hheld₁, L₀, ho₀, hbooks₀⟩
  refine (hstart.runs_calls (lhiSetSanityCheck_ok hs).1 he hsafe).imp fun r w hl => ?_
  obtain ⟨hset', -, hrest, L, ho, hbooks⟩ := hl
  refine (ho.runs_hiFini hrest).imp fun ret w' h' => ?_
  obtain ⟨hret, M, hleft, hempty⟩ := h'
  have hall := hbooks.trans hleft
  rw [show r.2.collEng = u.collEng from (congrArg UserSettings.collEng hset' :)] at hempty
  refine ⟨hret, ⟨M, hall⟩, ?_⟩
  rw [← hempty]
  constructor
  · exact fun h => List.Perm.nil_eq (h.unique hall) ▸ rfl
  · rintro rfl
    exact hall

/-- A table that holds an entry when it ends gives everything back. -/
theorem ledger_empty_iff_one :
    ∃ (h₀ : HiHandle String) (w₁ : World), (hiCreate oneList).run (World.start fun _ _ => 0) =
      .ok (.ok h₀, w₁) ∧
      Total (Prog.calls TableOp.call [.map (.insert ⟨[1, 0], by decide⟩ "one")] h₀) w₁ fun r w =>
        r.2.noObjects = 1 ∧ Total (hiFini r.2) w fun ret w' =>
          ret = success ∧ (World.start fun _ _ => 0).Books w' [] [] := by
  obtain ⟨h₀, w₁, r, w, hcreate, hdue, hrun, hcount⟩ : ∃ (h₀ : HiHandle String) (w₁ : World)
      (r : List (Result String) × HiHandle String) (w : World),
      (hiCreate oneList).run (World.start fun _ _ => 0) = .ok (.ok h₀, w₁) ∧ h₀.rehashAuto = 0 ∧
      (Prog.calls TableOp.call [.map (.insert ⟨[1, 0], by decide⟩ "one")] h₀).run w₁ = .ok (r, w) ∧
      r.2.noObjects = 1 := ⟨_, _, _, _, rfl, rfl, rfl, rfl⟩
  have heng : h₀.collEng = .list := congrArg UserSettings.collEng
    ((made_hiCreate (u := _) (s := oneList) rfl (.inl (.inl (.inl rfl)))).of_run hcreate h₀ rfl).1
  have hsafe : Meets TableOp.call Machine.any (fun _ => LedgerSafe)
      [.map (.insert ⟨[1, 0], by decide⟩ "one")] () h₀ w₁ := by
    refine ⟨⟨fun hd => (hd.1 hdue).elim, fun he => ?_⟩, fun _ _ _ _ => trivial⟩
    rw [heng] at he
    cases he
  refine ⟨h₀, w₁, hcreate, ?_⟩
  have hall := ledger_empty_iff (s := oneList) rfl (.inl (.inl (.inl rfl)))
    (World.start_allocsSucceed _) rfl hcreate hsafe
  refine total_iff.mpr ⟨r, w, hrun, hcount, (hall.of_run hrun).imp fun ret w' h' => ?_⟩
  exact ⟨h'.1, h'.2.2.mpr nofun⟩

/-! ## Blocks that stay -/

/-- The entry of a tree stays when the table ends, rehashing loses the block of a handle, and a mutex
that was unlocked once too often cannot be destroyed. -/
theorem fini_leaves_blocks :
    (∃ (h₀ : HiHandle String) (w₁ : World) (rs : List (Result String)) (h : HiHandle String)
        (w w' : World),
      (hiCreate { oneList with collEng := .rbtree }).run (World.start fun _ _ => 0) =
        .ok (.ok h₀, w₁) ∧
      (Prog.calls TableOp.call [.map (.insert ⟨[1, 0], by decide⟩ "one")] h₀).run w₁ =
        .ok ((rs, h), w) ∧
      (hiFini h).run w = .ok (success, w') ∧ ¬ (World.start fun _ _ => 0).Books w' [] []) ∧
    (∃ (h₀ : HiHandle String) (w₁ : World) (rs : List (Result String)) (h : HiHandle String)
        (w w' : World),
      (hiCreate oneList).run (World.start fun _ _ => 0) = .ok (.ok h₀, w₁) ∧
      (Prog.calls TableOp.call [.map (.insert ⟨[1, 0], by decide⟩ "one"), .rehash 2] h₀).run w₁ =
        .ok ((rs, h), w) ∧ rs.map Result.status = [success, success] ∧
      (hiFini h).run w = .ok (success, w') ∧ ¬ (World.start fun _ _ => 0).Books w' [] []) ∧
    ∃ (h₀ : HiHandle String) (w₁ : World) (rs : List (Result String)) (h : HiHandle String)
        (w w' : World),
      (hiCreate { oneList with collEng := .listMtf }).run (World.start fun _ _ => 0) =
        .ok (.ok h₀, w₁) ∧
      (Prog.calls TableOp.call [.map (.insert ⟨[1, 0], by decide⟩ "one"),
        .map (.get ⟨[1, 0], by decide⟩)] h₀).run w₁ = .ok ((rs, h), w) ∧
      rs = [⟨success, none⟩, ⟨success, some "one"⟩] ∧
      (hiFini h).run w = .ok (success, w') ∧ ¬ (World.start fun _ _ => 0).Books w' [] [] := by
  have hleft : ∀ {w' : World} {L : List Ptr}, L ≠ [] →
      (settle [] w'.moves).map (fun M => decide (M.Perm L)) = some true →
      ¬ (World.start fun _ _ => 0).Books w' [] [] := by
    intro w' L hL hsettle hbooks
    obtain ⟨M, hM, hp⟩ := Option.map_eq_some_iff.mp hsettle
    have hall : (World.start fun _ _ => 0).Books w' [] L :=
      ⟨w'.moves, rfl, M, hM, of_decide_eq_true hp⟩
    exact hL (List.Perm.nil_eq (hbooks.unique hall)).symm
  refine ⟨?_, ?_, ?_⟩
  · obtain ⟨h₀, w₁, rs, h, w, w', hcreate, hcalls, hfini, hmoves⟩ :
        ∃ (h₀ : HiHandle String) (w₁ : World) (rs : List (Result String)) (h : HiHandle String)
          (w w' : World),
        (hiCreate { oneList with collEng := .rbtree }).run (World.start fun _ _ => 0) =
          .ok (.ok h₀, w₁) ∧
        (Prog.calls TableOp.call [.map (.insert ⟨[1, 0], by decide⟩ "one")] h₀).run w₁ =
          .ok ((rs, h), w) ∧ (hiFini h).run w = .ok (success, w') ∧
        (settle [] w'.moves).map (fun M => decide (M.Perm [7, 8])) = some true :=
      ⟨_, _, _, _, _, _, rfl, rfl, rfl, by decide⟩
    exact ⟨h₀, w₁, rs, h, w, w', hcreate, hcalls, hfini, hleft (by decide) hmoves⟩
  · obtain ⟨h₀, w₁, rs, h, w, w', hcreate, hcalls, hrs, hfini, hmoves⟩ :
        ∃ (h₀ : HiHandle String) (w₁ : World) (rs : List (Result String)) (h : HiHandle String)
          (w w' : World),
        (hiCreate oneList).run (World.start fun _ _ => 0) = .ok (.ok h₀, w₁) ∧
        (Prog.calls TableOp.call [.map (.insert ⟨[1, 0], by decide⟩ "one"), .rehash 2] h₀).run w₁ =
          .ok ((rs, h), w) ∧ rs.map Result.status = [success, success] ∧
        (hiFini h).run w = .ok (success, w') ∧
        (settle [] w'.moves).map (fun M => decide (M.Perm [7])) = some true :=
      ⟨_, _, _, _, _, _, rfl, rfl, rfl, rfl, by decide⟩
    exact ⟨h₀, w₁, rs, h, w, w', hcreate, hcalls, hrs, hfini, hleft (by decide) hmoves⟩
  · obtain ⟨h₀, w₁, rs, h, w, w', hcreate, hcalls, hrs, hfini, hmoves⟩ :
        ∃ (h₀ : HiHandle String) (w₁ : World) (rs : List (Result String)) (h : HiHandle String)
          (w w' : World),
        (hiCreate { oneList with collEng := .listMtf }).run (World.start fun _ _ => 0) =
          .ok (.ok h₀, w₁) ∧
        (Prog.calls TableOp.call [.map (.insert ⟨[1, 0], by decide⟩ "one"),
          .map (.get ⟨[1, 0], by decide⟩)] h₀).run w₁ = .ok ((rs, h), w) ∧
        rs = [⟨success, none⟩, ⟨success, some "one"⟩] ∧ (hiFini h).run w = .ok (success, w') ∧
        (settle [] w'.moves).map (fun M => decide (M.Perm [2])) = some true :=
      ⟨_, _, _, _, _, _, rfl, rfl, rfl, rfl, by decide⟩
    exact ⟨h₀, w₁, rs, h, w, w', hcreate, hcalls, hrs, hfini, hleft (by decide) hmoves⟩

end Hashish
