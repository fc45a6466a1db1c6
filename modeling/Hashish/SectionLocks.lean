import Hashish.InsertAtomicity
import Hashish.LockDiscipline
import Hashish.SharedContents

/-!
# Sections and locks

Why a section may be taken for atomic: it takes one lock and releases it, or it takes none and
writes nothing.

* `Stage.advance_locks`: what a section of `COLL_ENG_LIST`, `COLL_ENG_ARRAY` and `COLL_ENG_RBTREE`
  does with the locks.
* `alone_call`: the sections of a call, one after the other, are the call.
-/

namespace Hashish

open Hashish.Lib

variable {δ : Type} {w : World} {h : HiHandle δ} {st : Stage δ} {key : Bytes} {keylen : UInt32}

/-- The section takes a lock. `hi_lookup` searches only lists, the root of a tree is read without a
lock, and a rehash that is not due does nothing. -/
def Stage.TakesLock (e : CollEng) : Stage δ → Prop
  | start (.insert _ _) => e = .list
  | start (.get _) => e ≠ .rbtree
  | rehash _ _ => False
  | _ => True

/-- From `w` to `w'` one lock of the handle was taken and released. An insertion that finds no memory
for the key in an array keeps the mutex. -/
def OneLock (h : HiHandle δ) (w w' : World) : Prop :=
  (∃ l, h.IsLock l ∧ w'.lockMoves = w.lockMoves ++ [.acquire l, .release l]) ∨
  (h.collEng = .array ∧ ¬ w.AllocsSucceed ∧
    w'.lockMoves = w.lockMoves ++ [.acquire (.mutex h.mutexLock)])

/-- What a section does with the locks. Without one it leaves the memory alone. -/
def Stage.Locked (st : Stage δ) (h : HiHandle δ) (w : World) (h' : HiHandle δ) (w' : World) : Prop :=
  (st.TakesLock h.collEng → OneLock h w w') ∧ (¬ st.TakesLock h.collEng → h' = h ∧ w' = w)

theorem Guarded.locked {α : Type} {m : Prog α} {Q : α → Prop} {f : α → HiHandle δ}
    (hm : Guarded h m Q) (ht : st.TakesLock h.collEng) :
    Partial m w fun a w' => st.Locked h w (f a) w' :=
  (hm w).imp fun _ _ h' => ⟨fun _ => .inl h'.1, fun hn => (hn ht).elim⟩

theorem Silent.locked {α : Type} {m : Prog α} {f : α → HiHandle δ}
    (hm : Silent m fun a => f a = h) (ht : ¬ st.TakesLock h.collEng) :
    Partial m w fun a w' => st.Locked h w (f a) w' :=
  (hm w).imp fun _ _ h' => ⟨fun hy => (ht hy).elim, fun _ => ⟨h'.2, h'.1⟩⟩

theorem guarded_hiLookup (he : h.collEng = .list) :
    Guarded h (hiLookup h key keylen) fun _ => True := by
  unfold hiLookup
  simp only [he]
  exact .of_moves (.inl rfl) (moves_mutexLock.seq fun _ => quiet_lhiLookupList.moves_seq fun _ =>
    moves_mutexUnlock.seq fun _ => .pure trivial)

theorem guarded_lhiGetList (he : h.collEng = .list) :
    Guarded h (lhiGetList h key keylen) fun _ => True := by
  refine quiet_bucketOf.guarded_seq fun bucket => ?_
  simp only [he]
  exact .of_moves (.inl rfl) (moves_mutexLock.seq fun _ => moves_getHit.seq fun _ => .pure trivial)

/-- A slot is filled under the mutex. It stays locked when there is no memory for the key. -/
theorem moves_lhiInsertArraySlot {bucket : Nat} {d : δ} (he : h.collEng = .array) :
    Partial (lhiInsertArraySlot h bucket key keylen d) w fun _ w' => OneLock h w w' := by
  have hdone : ∀ {α : Type} {m : Prog α} {w₁ : World},
      w₁.lockMoves = w.lockMoves ++ [.acquire (.mutex h.mutexLock)] →
      Moves m [.release (.mutex h.mutexLock)] (fun _ => True) →
        Partial m w₁ fun _ w' => OneLock h w w' := by
    intro α m w₁ h₁ hm
    refine (hm w₁).imp fun _ w' h' => .inl ⟨_, .inl rfl, ?_⟩
    rw [h'.1, h₁, List.append_assoc]
    rfl
  unfold lhiInsertArraySlot
  refine Runs.bind (moves_mutexLock w) fun _ w₁ hw₁ h₁ => ?_
  refine Runs.bind (quiet_growBucket w₁) ?_
  rintro ⟨g, grown⟩ w₂ hw₂ ⟨h₂, hkin⟩
  have h₂' := h₂.trans h₁.1
  rw [← hkin.2] at hdone h₂'
  refine runs_ite.mpr ⟨fun _ => hdone h₂' (moves_mutexUnlock.seq fun _ => .pure trivial), fun _ => ?_⟩
  unfold HiHandle.fillFreeSlot
  refine Runs.bind (quiet_load w₂) fun max w₃ hw₃ h₃ => ?_
  refine Runs.bind (silent_firstFree.quiet w₃) fun i w₄ hw₄ h₄ => ?_
  have h₄' := (h₄.1.trans h₃.1).trans h₂'
  cases i with
  | none => exact hdone h₄' (moves_mutexUnlock.seq fun _ => .pure trivial)
  | some i =>
    have hrequest : Partial xallocAlign w₄ fun r w' => (w'.lockMoves = w₄.lockMoves ∧ True) ∧
        ((∃ e, r = .error e) → ¬ w₄.AllocsSucceed) :=
      (quiet_xallocAlign w₄).and_returned
        (runs_xallocAlign (fun _ _ _ _ hno _ _ => hno) fun _ _ _ _ _ he => by
          obtain ⟨e, he⟩ := he
          cases he)
    refine Runs.bind hrequest fun dupkey w₅ _ h₅ => ?_
    have h₅' := h₅.1.1.trans h₄'
    cases dupkey with
    | error e =>
      refine .inr ⟨he, fun hs => h₅.2 ⟨e, rfl⟩ (hs.mono ?_), by rw [h₅', hkin.2]⟩
      exact ((hw₁.trans hw₂).trans hw₃).trans hw₄
    | ok dupkey =>
      refine hdone h₅' (quiet_memcpy.moves_seq fun _ => quiet_setSlot.moves_bind fun h' hk => ?_)
      rw [← hk.2]
      exact quiet_load.moves_seq fun _ => quiet_store.moves_seq fun _ => moves_mutexUnlock.seq fun _ =>
        .pure trivial

/-- Every section takes one lock and releases it, or it takes none and writes nothing. -/
theorem Stage.advance_locks (he : sharedEngine h.collEng) (hauto : h.rehashAuto = 0)
    (hfits : st.Fits h.toUserSettings) :
    Partial (st.advance h) w fun r w' => st.Locked h w r.2 w' := by
  cases st with
  | start op =>
    cases op with
    | insert k d =>
      unfold Stage.advance
      by_cases hl : h.collEng = .list
      · refine ((guarded_hiLookup hl).bind (R := fun _ => True) fun found _ => ?_).locked hl
        split <;> exact .pure trivial
      · refine Silent.locked (Silent.bind (P := fun _ => True) ?_ fun found _ => ?_) hl
        · unfold hiLookup
          rcases he.resolve_left hl with he | he <;> simp only [he] <;> exact .pure trivial
        · split <;> exact .pure rfl
    | get k =>
      unfold Stage.advance
      rcases he with he | he | he
      · simp only [he, hiGet]
        refine Guarded.locked (Q := fun _ => True) ?_ (by simp [TakesLock, he])
        exact (guarded_lhiGetList he).bind fun _ _ => .pure trivial
      · simp only [he, hiGet]
        refine Guarded.locked (Q := fun _ => True) ?_ (by simp [TakesLock, he])
        simp only [bind_assoc]
        refine (guarded_lhiGetArray he).bind fun _ _ => ?_
        exact .bind (P := fun _ => True) (.pure trivial) fun _ _ => .pure trivial
      · simp only [he]
        refine Silent.locked ?_ (by simp [TakesLock, he])
        exact silent_bucketOf.bind fun _ _ => silent_load.bind fun _ _ => .pure rfl
    | remove k =>
      unfold Stage.advance
      rcases he with he | he | he
      · simp only [he, hiRemove]
        refine Guarded.locked (Q := fun _ => True) ?_ trivial
        exact guarded_lhiRemoveList.bind fun _ _ => .pure trivial
      · simp only [he, hiRemove]
        refine Guarded.locked (Q := fun _ => True) ?_ trivial
        exact (guarded_lhiRemoveArray he).bind fun _ _ => .pure trivial
      · simp only [he]
        refine Guarded.locked (Q := fun _ => True)
          (guarded_lhiRemoveRbtreeNode.bind fun r _ => ?_) trivial
        split <;> exact .pure trivial
  | seek tree root k =>
    refine Guarded.locked (Q := fun _ => True) ?_ trivial
    exact guarded_lhiGetRbtreeNode.bind fun _ _ => .pure trivial
  | rehash k d =>
    unfold Stage.advance doRehash
    rw [if_pos hauto]
    exact Silent.locked (m := pure (_, h)) (.pure rfl) id
  | insert k d =>
    unfold Stage.advance
    rcases he with he | he | he
    · simp only [he, engineInsert]
      refine Guarded.locked (Q := fun _ => True) ?_ trivial
      exact guarded_lhiInsertList.bind fun _ _ => .pure trivial
    · simp only [he]
      refine Guarded.locked (Q := fun _ => True) ?_ trivial
      refine quiet_bucketOf.guarded_seq fun _ => (guarded_lhiGetArray he).bind fun found _ => ?_
      split <;> exact .pure trivial
    · simp only [he]
      refine Guarded.locked (Q := fun _ => True)
        (guarded_lhiInsertRbtreeNode.bind fun r _ => ?_) trivial
      split <;> exact .pure trivial
  | fill b k d =>
    refine Runs.bind (moves_lhiInsertArraySlot hfits.1) fun r w' _ hone => ?_
    exact ⟨fun _ => hone, fun hn => (hn trivial).elim⟩
  | count =>
    refine Guarded.locked (Q := fun _ => True) ?_ trivial
    exact guarded_countObject.bind fun _ _ => .pure trivial
  | uncount q =>
    refine Guarded.locked (Q := fun _ => True) ?_ trivial
    exact guarded_uncountObject.bind fun _ _ => .pure trivial

/-- The sections of a call, one after the other, are the call. Each of them takes one lock of the
handle and releases it, or takes none and leaves the handle and the memory alone. -/
theorem alone_call (h : HiHandle δ) :
    (∀ op : MapOp δ, (tableProtocol δ).alone .nontermination 4 ((tableProtocol δ).start op) h =
      op.call h) ∧
    (sharedEngine h.collEng → h.rehashAuto = 0 → ∀ (st : Stage δ) (w : World),
      st.Fits h.toUserSettings → Partial (st.advance h) w fun r w' => st.Locked h w r.2 w') :=
  ⟨fun op => alone_op op h, fun he hauto st _ hfits => st.advance_locks he hauto hfits⟩

/-- The section that links a node takes the lock of its tree, and no other. -/
theorem alone_call_one :
    ∃ (h h' : HiHandle String) (w w' : World),
      (hiCreate oneTree).run (World.start fun _ _ => 0) = .ok (.ok h, w) ∧
      ((Stage.insert ⟨[1, 0], by decide⟩ "one").advance h).run w = .ok ((.inl .count, h'), w') ∧
      (∃ l, h.IsLock l ∧ w'.lockMoves = w.lockMoves ++ [.acquire l, .release l]) ∧
      (tableProtocol String).alone .nontermination 4 (.start (.insert ⟨[1, 0], by decide⟩ "one")) h =
        (MapOp.insert ⟨[1, 0], by decide⟩ "one").call h := by
  obtain ⟨h, h', w, w', hcreate, heng, hauto, hrun⟩ :
      ∃ (h h' : HiHandle String) (w w' : World),
      (hiCreate oneTree).run (World.start fun _ _ => 0) = .ok (.ok h, w) ∧ h.collEng = .rbtree ∧
      h.rehashAuto = 0 ∧
      ((Stage.insert ⟨[1, 0], by decide⟩ "one").advance h).run w = .ok ((.inl .count, h'), w') :=
    ⟨_, _, _, _, rfl, rfl, rfl, rfl⟩
  obtain ⟨halone, hsections⟩ := alone_call h
  have hsection := hsections (.inr (.inr heng)) hauto (.insert ⟨[1, 0], by decide⟩ "one") w trivial
  have hlocked := hsection.of_run hrun
  refine ⟨h, h', w, w', hcreate, hrun, (hlocked.1 trivial).resolve_right fun hkept => ?_, halone _⟩
  exact absurd (heng.symm.trans hkept.1) (by decide)

end Hashish
