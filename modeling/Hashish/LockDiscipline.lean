import Hashish.ArrayRehash

/-!
# The discipline of the locks

Every call locks what is free, unlocks what it locked, and ends with all locks free, whatever the
allocator answers, but for calls of four kinds.

* `lock_discipline`: the runs without such calls.
* `locks_broken`: one run for each kind.
-/

namespace Hashish

open Hashish.Lib

variable {δ : Type} {w w' : World} {h : HiHandle δ} {data : δ} {n : UInt32}

/-! ## Insertion -/

/-- The condition on a rehash. -/
def RehashSafe (h : HiHandle δ) (n : UInt32) (w : World) : Prop :=
  LocksReady { h.toUserSettings with tableSize := n } 5 w ∧
    (arrayEngine h.collEng → h.Stops n w)

/-- The condition on an insertion into an array table that does not rehash. -/
def SlotSafe (h : HiHandle δ) (w : World) (k : Key) : Prop := h.FindsSlot w k ∨ h.KeyServed w k

/-- The condition on an insertion. -/
def InsertSafe (h : HiHandle δ) (w : World) (k : Key) : Prop :=
  (h.Due → RehashSafe h (h.tableSize * 2) w) ∧
    (arrayEngine h.collEng → (¬ h.Due → SlotSafe h w k) ∧
      (h.Due → ∀ w', w ≤ w' → h.Stopped (h.tableSize * 2) w w' → SlotSafe h w' k))

theorem unlocks_doRehash {Q : HiHandle δ → World → Prop}
    (hdue : h.Due → Partial (hiRehash h (h.tableSize * 2)) w fun r w' => Q r.2 w')
    (hnot : ¬ h.Due → Q h w) : Partial (doRehash hiRehash h) w Q := by
  by_cases hu : h.tableSize = 0
  · unfold doRehash udiv
    rw [if_pos hu]
    refine runs_ite.mpr ⟨fun ha => hnot fun hd => hd.1 ha, fun _ => ?_⟩
    exact runs_bind.mpr trivial
  · exact runs_doRehash hu hdue hnot

theorem unlocks_hiInsert {k : Key} (hu : h.collEng ≠ .unset) (hm : h.collEng ≠ .max)
    (hw : w.held = some []) (hs : InsertSafe h w k) :
    Partial (hiInsert h k.bytes k.keylen data) w fun r w' =>
      w'.held = some [] ∧ r.2.collEng = h.collEng := by
  by_cases ha : arrayEngine h.collEng
  · have hinsert : ∀ w', w'.held = some [] → SlotSafe h w' k →
        Partial (engineInsert h k.bytes k.keylen data) w' fun r w' =>
          w'.held = some [] ∧ r.2.collEng = h.collEng := by
      intro w' hw' hslot
      rw [engineInsert_array ha]
      exact (unlocks_lhiInsertArray hw' hslot).imp fun r _ h' =>
        ⟨h'.1, congrArg UserSettings.collEng h'.2.1⟩
    unfold hiInsert hiInsertWith
    rw [hiLookup_array ha]
    refine runs_bind.mpr (runs_ite.mpr ⟨fun hf => absurd hf (by decide), fun _ => ?_⟩)
    refine runs_bind.mpr (unlocks_doRehash (fun hd => ?_) fun hd => hinsert w hw ((hs.2 ha).1 hd))
    refine (unlocks_hiRehash_array ha hw ((hs.1 hd).2 ha)).and_grows.imp fun r w' h' => ?_
    obtain ⟨hw', hheld, hsame, hstopped⟩ := h'
    rw [hsame]
    exact hinsert w' hheld ((hs.2 ha).2 hd w' hw' hstopped)
  · have hsame : Partial (hiLookup h k.bytes k.keylen) w fun _ w' =>
        h.collEng = .rbtree → w' = w := by
      by_cases he : h.collEng = .rbtree
      · unfold hiLookup
        rw [he]
        exact fun _ => rfl
      · exact partial_iff.mpr fun _ _ _ hr => (he hr).elim
    refine Runs.bind ((locks_hiLookup w hw).and_returned hsame) fun found w₁ _ h₁ => ?_
    obtain ⟨⟨hheld, -⟩, hsame⟩ := h₁
    refine runs_ite.mpr ⟨fun _ => ⟨hheld, rfl⟩, fun _ => ?_⟩
    have hready : h.Due → LocksReady { h.toUserSettings with tableSize := h.tableSize * 2 } 5 w₁ := by
      intro hd he
      rw [hsame he]
      exact (hs.1 hd).1 he
    have hinsert : ∀ (h' : HiHandle δ) w', w'.held = some [] → h'.collEng = h.collEng →
        Partial (engineInsert h' k.bytes k.keylen data) w' fun r w' =>
          w'.held = some [] ∧ r.2.collEng = h.collEng := fun h' w' hw' he =>
      (locks_engineInsert (he ▸ ha) w' hw').imp fun r _ hr =>
        ⟨hr.1, (congrArg UserSettings.collEng hr.2.1).trans he⟩
    refine runs_bind.mpr (unlocks_doRehash (fun hd => ?_) fun _ => hinsert h w₁ hheld rfl)
    exact (unlocks_hiRehash ha hu hm hheld (hready hd)).imp fun r w' h' => hinsert r.2 w' h'.1 h'.2

/-! ## Runs -/

/-- The public calls on a handle, but for `hi_fini`. -/
inductive PublicCall (δ : Type)
  | iter (c : IterCall δ)
  | rehash (n : UInt32)

def PublicCall.call (c : PublicCall δ) (t : IterTable δ) :
    Prog (Option (IterAnswer δ) × IterTable δ) :=
  match c with
  | iter c => c.call t
  | rehash n => do
    let (status, h) ← hiRehash t.handle n
    pure (some ⟨status, none, none⟩, { t with handle := h })

/-- The condition on a call. -/
def LockSafe (t : IterTable δ) (w : World) (c : PublicCall δ) : Prop :=
  match c with
  | .iter (.map (.insert k _)) => InsertSafe t.handle w k
  | .iter (.map (.get _)) => t.handle.collEng ≠ .listMtf
  | .iter (.map (.remove _)) | .iter .create | .iter (.getnext _) | .iter (.reset _) => True
  | .rehash n => RehashSafe t.handle n w

/-- All locks are free, and the engine is `e`. -/
def Unlocked (e : CollEng) (t : IterTable δ) (w : World) : Prop :=
  w.held = some [] ∧ t.handle.collEng = e

theorem Unlocked.runs_call {e : CollEng} {t : IterTable δ} {c : PublicCall δ} (hu : e ≠ .unset)
    (hm : e ≠ .max) (ht : Unlocked e t w) (hc : LockSafe t w c) :
    Partial (c.call t) w fun r w' => Unlocked e r.2 w' := by
  obtain ⟨hw, rfl⟩ := ht
  have hkin : ∀ {op : MapOp δ}, Locks (op.call t.handle) [] [] (fun r => Kin t.handle r.2) →
      Partial ((IterCall.map op).call t) w fun r w' => Unlocked t.handle.collEng r.2 w' := by
    intro op hop
    exact Runs.bind (hop w hw) fun r w' _ h' => ⟨h'.1, congrArg UserSettings.collEng h'.2.1⟩
  cases c with
  | rehash n =>
    refine Runs.bind (Q := fun r w' => w'.held = some [] ∧ r.2.collEng = t.handle.collEng) ?_
      fun r w' _ h' => ⟨h'.1, h'.2⟩
    by_cases ha : arrayEngine t.handle.collEng
    · exact (unlocks_hiRehash_array ha hw (hc.2 ha)).imp fun r w' h' =>
        ⟨h'.1, congrArg (·.collEng) h'.2.1⟩
    · exact unlocks_hiRehash ha hu hm hw hc.1
  | iter c =>
    cases c with
    | map op =>
      cases op with
      | insert k d =>
        refine Runs.bind (Q := fun r w' => w'.held = some [] ∧ r.2.collEng = t.handle.collEng) ?_
          fun r w' _ h' => ⟨h'.1, h'.2⟩
        exact Runs.bind (unlocks_hiInsert hu hm hw hc) fun r w' _ h' => ⟨h'.1, h'.2⟩
      | get k => exact hkin (locks_hiGet hc)
      | remove k => exact hkin locks_hiRemove
    | create =>
      refine Runs.bind (locks_hiIteratorCreate w hw) fun r w' _ h' => ?_
      cases r with
      | error e => exact ⟨h'.1, rfl⟩
      | ok i => exact ⟨h'.1, rfl⟩
    | getnext n =>
      unfold PublicCall.call IterCall.call
      dsimp only
      split
      · exact ⟨hw, rfl⟩
      · exact Runs.bind (locks_hiIteratorGetnext w hw) fun r w' _ h' => ⟨h'.1, rfl⟩
    | reset n =>
      unfold PublicCall.call IterCall.call
      dsimp only
      split
      · exact ⟨hw, rfl⟩
      · exact Runs.bind (locks_hiIteratorReset w hw) fun r w' _ h' => ⟨h'.1, rfl⟩

theorem lhiSetSanityCheck_engine {s : HiInitSet} {u : UserSettings}
    (hs : lhiSetSanityCheck s = .ok u) : u.collEng ≠ .unset ∧ u.collEng ≠ .max := by
  obtain ⟨-, -, heng, -⟩ := lhiSetSanityCheck_ok hs
  have hneither : ∀ {e : CollEng}, u.collEng = e → e ≠ .unset ∧ e ≠ .max := by
    intro e he
    unfold lhiSetSanityCheck at hs
    rw [← heng, he] at hs
    split at hs
    · cases hs
    · split at hs
      · cases hs
      · cases hs
      · cases e
        case unset | max => simp [hiErrInternal, success] at hs
        all_goals exact ⟨nofun, nofun⟩
  exact hneither rfl

/-- Whatever the allocator answers, the calls that meet the condition keep to the discipline, and each
of them ends with all locks free. -/
theorem lock_discipline {s : HiInitSet} {w₀ : World} (hw : w₀.held = some [])
    (hready : ∀ u, lhiSetSanityCheck s = .ok u → LocksReady u 5 w₀) :
    Partial (hiCreate s : Prog (Except Int (HiHandle δ))) w₀ fun r w₁ => w₁.held = some [] ∧
      ∀ h, r = .ok h → ∀ cs, Meets PublicCall.call Machine.any (fun _ => LockSafe) cs () ⟨h, []⟩ w₁ →
        Partial (Prog.calls PublicCall.call cs ⟨h, []⟩) w₁ fun r w => w.held = some [] ∧
          (¬ arrayEngine r.2.handle.collEng →
            Partial (hiFini r.2.handle) w fun _ w' => w'.held = some []) := by
  refine (unlocks_hiCreate hw hready).imp fun r w₁ h₁ => ⟨h₁.1, fun h hr cs hcs => ?_⟩
  obtain ⟨hu, hm⟩ := lhiSetSanityCheck_engine (h₁.2 h hr)
  have hstart : Unlocked h.collEng (⟨h, []⟩ : IterTable δ) w₁ := ⟨h₁.1, rfl⟩
  have hrun := runs_calls (E := fun _ => True) (R := fun t w _ => Unlocked h.collEng t w) hstart hcs
    fun c t w _ ht hc => (ht.runs_call hu hm hc).imp fun _ _ h' => ⟨trivial, h'⟩
  refine hrun.imp ?_
  rintro r w ⟨_, -, hheld, he⟩
  exact ⟨hheld, fun ha => (locks_hiFini ha (he ▸ hu) (he ▸ hm)).ends hheld⟩

/-- A tree table from its creation to its end. -/
theorem lock_discipline_one :
    ∃ (h : HiHandle String) (w₁ : World) (r : List (Option (IterAnswer String)) × IterTable String)
        (w w' : World),
      (hiCreate { oneList with collEng := .rbtree }).run (World.start fun _ _ => 0) =
        .ok (.ok h, w₁) ∧
      (Prog.calls PublicCall.call [.iter (.map (.insert ⟨[1, 0], by decide⟩ "one"))] ⟨h, []⟩).run w₁ =
        .ok (r, w) ∧
      (hiFini r.2.handle).run w = .ok (success, w') ∧
      w₁.held = some [] ∧ w.held = some [] ∧ w'.held = some [] := by
  obtain ⟨h, w₁, r, w, w', hcreate, hcalls, hfini, hdue, heng⟩ : ∃ (h : HiHandle String) (w₁ : World)
      (r : List (Option (IterAnswer String)) × IterTable String) (w w' : World),
      (hiCreate { oneList with collEng := .rbtree }).run (World.start fun _ _ => 0) =
        .ok (.ok h, w₁) ∧
      (Prog.calls PublicCall.call [.iter (.map (.insert ⟨[1, 0], by decide⟩ "one"))] ⟨h, []⟩).run w₁ =
        .ok (r, w) ∧
      (hiFini r.2.handle).run w = .ok (success, w') ∧ h.rehashAuto = 0 ∧
      r.2.handle.collEng = .rbtree ∧ h.collEng = .rbtree :=
    ⟨_, _, _, _, _, rfl, rfl, rfl, rfl, rfl, rfl⟩
  have hserves : ∀ n, (World.start fun _ _ => 0).Serves n := fun n i _ => ⟨_, rfl⟩
  obtain ⟨hw₁, hall⟩ := (lock_discipline (δ := String) (s := { oneList with collEng := .rbtree }) rfl
    fun u _ _ _ => hserves _).of_run hcreate
  have hsafe : Meets PublicCall.call Machine.any (fun _ => LockSafe)
      [.iter (.map (.insert ⟨[1, 0], by decide⟩ "one"))] () (⟨h, []⟩ : IterTable String) w₁ := by
    refine ⟨⟨fun hd => (hd.1 hdue).elim, fun ha => ?_⟩, fun _ _ _ _ => trivial⟩
    rw [heng.2] at ha
    exact ha.elim
  obtain ⟨hw, hend⟩ := (hall h rfl _ hsafe).of_run hcalls
  have hfree := (hend fun ha => by rw [heng.1] at ha; exact ha).of_run hfini
  exact ⟨h, w₁, r, w, w', hcreate, hcalls, hfini, hw₁, hw, hfree⟩

/-! ## Calls that break the discipline -/

/-- `hi_get` on a `COLL_ENG_LIST_MTF` table unlocks a mutex that is free; `hi_insert` into an array
table leaves the mutex locked when there is no memory for the key; `hi_fini` of an array table locks
it twice; `hi_create` of a tree table leaves it locked when the lock of a tree fails. -/
theorem locks_broken :
    (∃ (h h' : HiHandle String) (w w' : World),
      (hiCreate { oneList with collEng := .listMtf }).run (World.start fun _ _ => 0) = .ok (.ok h, w) ∧
      (hiGet h [1, 0] 2).run w = .ok ((⟨hiErrNokey, none⟩, h'), w') ∧ w'.held = none) ∧
    (∃ (h h' : HiHandle String) (w w' : World) (m : Ptr),
      (hiCreate (oneArray 1)).run (World.startFailing 8) = .ok (.ok h, w) ∧
      (hiInsert h [1, 0] 2 "one").run w = .ok ((hiErrSystem, h'), w') ∧
      w'.held = some [.mutex (some m)]) ∧
    (∃ (h : HiHandle String) (w w' : World),
      (hiCreate (oneArray 1)).run (World.start fun _ _ => 0) = .ok (.ok h, w) ∧
      (hiFini h).run w = .ok (success, w') ∧ w'.held = none) ∧
    ∃ (w' : World) (m : Ptr),
      (hiCreate { oneList with collEng := .rbtree } : Prog (Except Int (HiHandle String))).run
        (World.startFailing 6) = .ok (.error hiErrSystem, w') ∧ w'.held = some [.mutex (some m)] :=
  ⟨⟨_, _, _, _, rfl, rfl, rfl⟩, ⟨_, _, _, _, _, rfl, rfl, rfl⟩, ⟨_, _, _, rfl, rfl, rfl⟩,
    ⟨_, _, rfl, rfl⟩⟩

end Hashish
