import Hashish.ArrayCorrectness
import Hashish.TableSize
import Hashish.Upkeep

/-!
# The variants of the array engine

`hi_create` accepts `COLL_ENG_ARRAY_HASH`, `COLL_ENG_ARRAY_DYN` and
`COLL_ENG_ARRAY_DYN_HASH`, and `lhi_insert_array` stores pairs for them. The search of
`lhi_get_array` and `lhi_remove_array` is written for `COLL_ENG_ARRAY` only: for the
others both answer `HI_ERR_NOKEY` without a look into the bucket.

* `runs_unfound`: on such a handle no call ever finds a key.
* `array_variants_lose_keys`: a run that asks for a stored key gets a wrong answer.
-/

namespace Hashish

open Hashish.Lib

variable {δ : Type} {w : World} {h : HiHandle δ}

/-- The engines whose search is missing. -/
def arrayVariant (e : CollEng) : Prop := e = .arrayHash ∨ e = .arrayDyn ∨ e = .arrayDynHash

/-! ## The settings of a handle stay -/

section Settings

variable {rehash : HiHandle δ → UInt32 → Prog (Int × HiHandle δ)} {key : Bytes} {keylen : UInt32}
  {data : δ} (he : h.collEng ≠ .unset ∧ h.collEng ≠ .max)
include he

/-- An insertion that does not rehash. -/
theorem partial_hiInsertWith (hauto : h.rehashAuto = 0) :
    Partial (hiInsertWith rehash h key keylen data) w fun r _ =>
      r.2.toUserSettings = h.toUserSettings := by
  by_cases hu : h.tableSize = 0
  · exact (runs_hiInsertWith_zero he hu hauto).imp fun _ _ hf => hf.elim
  · exact (noDiv_hiInsertWith hu hauto w).mono_fault fun _ _ => trivial

omit he in
theorem partial_rehashLoop {fuel : Nat} {i : HiIterator δ} {new : HiHandle δ}
    (hnew : new.collEng ≠ .unset ∧ new.collEng ≠ .max) (hauto : new.rehashAuto = 0) :
    Partial (rehashLoop h fuel i new) w fun r _ => ∀ new', r.2.2 = some new' →
      new'.toUserSettings = new.toUserSettings := by
  induction fuel generalizing i new w with
  | zero => exact trivial
  | succ fuel ih =>
    refine Runs.bind (Q := fun _ _ => True) partial_trivial fun r w₁ _ _ => ?_
    obtain ⟨ret, next, i'⟩ := r
    cases next with
    | none =>
      intro new' he'
      cases he'
      rfl
    | some item =>
      refine Runs.bind (partial_hiInsertWith hnew hauto) fun r w₂ _ hset => ?_
      obtain ⟨ret, new₁⟩ := r
      dsimp only at hset ⊢
      refine runs_ite.mpr ⟨fun _ => ?_, fun _ => ?_⟩
      · have hgone : ∀ {w₅}, Partial (pure (ret, i', none) : Prog _) w₅ fun r _ =>
            ∀ new' : HiHandle δ, r.2.2 = some new' → new'.toUserSettings = new.toUserSettings :=
          fun new' h => (Option.some_ne_none new' h.symm).elim
        refine Runs.bind (Q := fun _ _ => True) partial_trivial fun _ w₃ _ _ => ?_
        refine Runs.bind (Q := fun _ _ => True) partial_trivial fun fini w₄ _ _ => ?_
        refine runs_ite.mpr ⟨fun _ => ?_, fun _ => ?_⟩
        · exact runs_bind.mpr (runs_record.mpr hgone)
        · exact runs_bind.mpr (runs_pure.mpr hgone)
      · have heng : new₁.collEng = new.collEng := (congrArg UserSettings.collEng hset :)
        have hzero : new₁.rehashAuto = new.rehashAuto := (congrArg UserSettings.rehashAuto hset :)
        refine (ih (heng ▸ hnew) (hzero.trans hauto)).imp fun r w₃ hr new' he' => ?_
        exact (hr new' he').trans hset

theorem partial_hiRehash {n : UInt32} :
    Partial (hiRehash h n) w fun r _ => Alike h.toUserSettings r.2.toUserSettings := by
  refine Runs.bind (Q := fun _ _ => True) partial_trivial fun self w₁ _ _ => ?_
  cases self with
  | error e => exact rfl
  | ok self =>
  refine Runs.bind ((noDiv_createWith w₁).mono_fault fun _ _ => trivial) fun new w₂ _ hnew => ?_
  cases new with
  | error e => exact rfl
  | ok new =>
  have hset := hnew new rfl
  refine Runs.bind (Q := fun _ _ => True) partial_trivial fun i w₃ _ _ => ?_
  cases i with
  | error e => exact rfl
  | ok i =>
  have heng : new.collEng = h.collEng := (congrArg UserSettings.collEng hset :)
  refine Runs.bind (partial_rehashLoop (heng ▸ he) rfl) fun r w₄ _ hr => ?_
  obtain ⟨ret, i, rebuilt⟩ := r
  cases rebuilt with
  | none => exact rfl
  | some new' =>
    have hset' := hr new' rfl
    refine Runs.bind (Q := fun _ _ => True) partial_trivial fun _ w₅ _ _ => ?_
    refine runs_ite.mpr ⟨fun _ => rfl, fun _ => ?_⟩
    refine Runs.bind (Q := fun _ _ => True) partial_trivial fun _ w₆ _ _ => ?_
    show Alike _ { new'.toUserSettings with rehashAuto := h.rehashAuto }
    rw [hset', show ({ new with rehashAuto := 0 } : HiHandle δ).toUserSettings =
      { new.toUserSettings with rehashAuto := 0 } from rfl, hset]
    rfl

theorem partial_doRehash :
    Partial (doRehash hiRehash h) w fun h' _ => Alike h.toUserSettings h'.toUserSettings := by
  refine runs_ite.mpr ⟨fun _ => rfl, fun _ => ?_⟩
  refine Runs.bind (Q := fun _ _ => True) partial_trivial fun lf w₁ _ _ => ?_
  refine runs_ite.mpr ⟨fun _ => ?_, fun _ => rfl⟩
  exact runs_bind.mpr (partial_hiRehash he)

end Settings

/-! ## No key is found -/

section Variants

variable {k : Key} {d : δ} (he : arrayVariant h.collEng)
include he

theorem partial_lhiGetArray : Partial (lhiGetArray h k.bytes k.keylen) w fun r _ =>
    r = ⟨hiErrNokey, none⟩ := by
  refine Runs.bind (Q := fun _ _ => True) partial_trivial fun b w₁ _ _ => ?_
  rcases he with he | he | he <;> rw [he] <;> exact rfl

theorem partial_lhiRemoveArray : Partial (lhiRemoveArray h k.bytes k.keylen) w fun r _ =>
    r = (⟨hiErrNokey, none⟩, h) := by
  refine Runs.bind (Q := fun _ _ => True) partial_trivial fun b w₁ _ _ => ?_
  rcases he with he | he | he <;> rw [he] <;> exact rfl

/-- `lhi_insert_array` cannot see that the key is there. -/
theorem partial_lhiInsertArray : Partial (lhiInsertArray h k.bytes k.keylen d) w fun r _ =>
    r.1 ≠ hiErrDupkey ∧ r.2.toUserSettings = h.toUserSettings := by
  have hset : Partial (lhiInsertArray h k.bytes k.keylen d) w fun r _ =>
      r.2.toUserSettings = h.toUserSettings := by
    by_cases hu : h.tableSize = 0
    · exact runs_bind.mpr (runs_bucketOf_zero hu)
    · exact (noDiv_lhiInsertArray hu w).mono_fault fun _ _ => trivial
  refine Runs.and_returned ?_ hset
  refine Runs.bind (Q := fun _ _ => True) partial_trivial fun b w₁ _ _ => ?_
  refine Runs.bind (partial_lhiGetArray he) fun found w₂ _ hfound => ?_
  subst hfound
  refine runs_ite.mpr ⟨fun hs => absurd (show hiErrNokey = success from hs) (by decide), fun _ => ?_⟩
  refine Runs.bind (Q := fun _ _ => True) partial_trivial fun _ w₃ _ _ => ?_
  refine Runs.bind (Q := fun _ _ => True) partial_trivial fun r w₄ _ _ => ?_
  obtain ⟨h', grown⟩ := r
  dsimp only
  refine runs_ite.mpr ⟨fun _ => ?_, fun _ => ?_⟩
  · exact show hiErrSystem ≠ hiErrDupkey by decide
  refine Runs.bind (Q := fun _ _ => True) partial_trivial fun slotMax w₅ _ _ => ?_
  refine Runs.bind (Q := fun _ _ => True) partial_trivial fun i w₆ _ _ => ?_
  cases i with
  | none => exact show hiErrInternal ≠ hiErrDupkey by decide
  | some i =>
  refine Runs.bind (Q := fun _ _ => True) partial_trivial fun dupkey w₇ _ _ => ?_
  cases dupkey with
  | error e => exact show hiErrSystem ≠ hiErrDupkey by decide
  | ok dupkey =>
  refine Runs.bind (Q := fun _ _ => True) partial_trivial fun key w₈ _ _ => ?_
  refine Runs.bind (Q := fun _ _ => True) partial_trivial fun h₁ w₉ _ _ => ?_
  refine Runs.bind (Q := fun _ _ => True) partial_trivial fun n w₁₀ _ _ => ?_
  refine Runs.bind (Q := fun _ _ => True) partial_trivial fun ns w₁₁ _ _ => ?_
  exact show success ≠ hiErrDupkey by decide

/-- What a call answers that finds no key. -/
def Unfound (op : MapOp δ) (r : Result δ) : Prop :=
  match op with
  | .insert _ _ => r.status ≠ hiErrDupkey
  | .get _ | .remove _ => r = ⟨hiErrNokey, none⟩

theorem runs_unfound (op : MapOp δ) : Partial (op.call h) w fun r _ =>
    Unfound op r.1 ∧ arrayVariant r.2.collEng := by
  have hne : h.collEng ≠ .unset ∧ h.collEng ≠ .max := by
    rcases he with he | he | he <;> rw [he] <;> exact ⟨nofun, nofun⟩
  cases op with
  | insert k d =>
    have hlookup : Partial (hiLookup h k.bytes k.keylen) w fun found _ => found = failure := by
      unfold hiLookup
      rcases he with he | he | he <;> rw [he] <;> exact rfl
    refine runs_bind.mpr (Runs.bind hlookup fun found w₁ _ hfound => ?_)
    rw [hfound, if_neg (by decide)]
    refine Runs.bind (partial_doRehash hne) fun h₁ w₂ _ hset => ?_
    have heng : h₁.collEng = h.collEng := (congrArg UserSettings.collEng hset :)
    have he₁ : arrayVariant h₁.collEng := heng ▸ he
    have hinsert : engineInsert h₁ k.bytes k.keylen d = lhiInsertArray h₁ k.bytes k.keylen d := by
      unfold engineInsert
      rcases he₁ with he₁ | he₁ | he₁ <;> rw [he₁]
    rw [hinsert]
    refine (partial_lhiInsertArray he₁).imp fun r w₃ hr => ?_
    obtain ⟨ret, h₂⟩ := r
    have heng₂ : h₂.collEng = h₁.collEng := (congrArg UserSettings.collEng hr.2 :)
    exact ⟨hr.1, heng₂ ▸ he₁⟩
  | get k =>
    unfold MapOp.call hiGet
    rcases id he with he' | he' | he' <;> rw [he'] <;>
      exact Runs.bind (partial_lhiGetArray he) fun r _ _ hr => ⟨hr, he⟩
  | remove k =>
    unfold MapOp.call hiRemove
    rcases id he with he' | he' | he' <;> rw [he'] <;>
      exact (partial_lhiRemoveArray he).imp fun r _ hr => hr ▸ ⟨rfl, he⟩

end Variants

/-! ## Runs -/

/-- The handle answers the calls as the map does. -/
def AnswersAsMap (h : HiHandle δ) (w : World) (ops : List (MapOp δ)) : Prop :=
  Total (Prog.calls MapOp.call ops h) w fun r _ => r.1 = (mapSession h.keyCmp ops).1

/-- The last call of a run finds nothing. -/
theorem runs_calls_unfound (he : arrayVariant h.collEng) (ops : List (MapOp δ)) (op : MapOp δ) :
    Partial (Prog.calls MapOp.call (ops ++ [op]) h) w fun r _ =>
      ∃ rs a, r.1 = rs ++ [a] ∧ Unfound op a := by
  have hkept : Partial (Prog.calls MapOp.call ops h) w fun r _ => arrayVariant r.2.collEng := by
    induction ops generalizing h w with
    | nil => exact he
    | cons o ops ih =>
      exact runs_calls_cons ((runs_unfound he o).imp fun r w₁ hr => ih hr.2)
  refine runs_calls_append (hkept.imp fun r w₁ hr => ?_)
  refine runs_calls_cons ((runs_unfound hr op).imp fun r' w₂ hr' => ?_)
  exact ⟨r.1, r'.1, rfl, hr'.1⟩

/-- What the map answers in a run and a call after it. -/
theorem mapRun_concat {cmp : KeyCmp} (m : KeyMap cmp δ) (ops : List (MapOp δ)) (op : MapOp δ) :
    (mapRun m (ops ++ [op])).1 = (mapRun m ops).1 ++ [(mapStep (mapRun m ops).2 op).1] :=
  congrArg Prod.fst (Machine.runStep_append m ops [op])

/-- The map finds a key that is there. -/
theorem not_unfound {cmp : KeyCmp} {m : KeyMap cmp δ} {op : MapOp δ} (hk : ¬ m.Absent op.key) :
    ¬ Unfound op (mapStep m op).1 := by
  have hget : ∃ d, m.get op.key = some d := by
    unfold FMap.Absent at hk
    push Not at hk
    obtain ⟨p, hp, hs⟩ := hk
    have hsome : (m.pairs.find? fun p => decide (cmp.same op.key p.1)).isSome :=
      List.find?_isSome.mpr ⟨p, hp, by simpa using hs⟩
    obtain ⟨q, hq⟩ := Option.isSome_iff_exists.mp hsome
    exact ⟨q.2, by rw [FMap.get, hq]; rfl⟩
  obtain ⟨d, hd⟩ := hget
  cases op with
  | insert k d' =>
    rw [mapStep, dif_neg (show ¬ m.Absent k from hk)]
    exact fun hun => hun rfl
  | get k | remove k =>
    intro hun
    have hun : answerOf (m.get k) = ⟨hiErrNokey, none⟩ := hun
    rw [show m.get k = some d from hd] at hun
    exact absurd (show success = hiErrNokey from congrArg Result.status hun) (by decide)

/-- No call can be answered properly whose key is in the table. -/
theorem not_answersAsMap (he : arrayVariant h.collEng) {ops : List (MapOp δ)} {op : MapOp δ}
    (hk : ¬ (mapSession h.keyCmp ops).2.Absent op.key) : ¬ AnswersAsMap h w (ops ++ [op]) := by
  intro hall
  obtain ⟨⟨rs, h'⟩, w', hrun, hrs⟩ := total_iff.mp hall
  obtain ⟨rs₀, a, ha, hun⟩ := (runs_calls_unfound he ops op).of_run hrun
  dsimp only at ha hrs
  rw [hrs, mapSession, mapRun_concat] at ha
  obtain ⟨-, hlast⟩ := List.append_inj' ha rfl
  cases hlast
  exact not_unfound hk hun

/-- No handle of these engines keeps what it stores. After the insertion of a key the same key is
not found, and in every run the first call that asks for a stored key gets a wrong answer. -/
theorem array_variants_lose_keys {s : HiInitSet} {w₀ : World} (he : arrayVariant s.collEng)
    (hcreate : (hiCreate s).run w₀ = .ok (.ok h, w)) :
    (∀ (k : Key) (d : δ), ¬ Total (Prog.calls MapOp.call [.insert k d, .get k] h) w fun r _ =>
      r.1 = [⟨success, none⟩, ⟨success, some d⟩]) ∧
    ∀ ops op, ¬ (mapSession h.keyCmp ops).2.Absent op.key → ¬ AnswersAsMap h w (ops ++ [op]) := by
  have hcheck : Partial (hiCreate s) w₀ fun r _ =>
      ∀ h : HiHandle δ, r = .ok h → lhiSetSanityCheck s = .ok h.toUserSettings :=
    (noDiv_hiCreate w₀).mono_fault fun _ _ => trivial
  have heng : h.collEng = s.collEng := (lhiSetSanityCheck_ok (hcheck.of_run hcreate h rfl)).2.2.1
  have he' : arrayVariant h.collEng := heng ▸ he
  refine ⟨fun k d hall => ?_, fun ops op hk => not_answersAsMap he' hk⟩
  obtain ⟨⟨rs, h'⟩, w', hrun, hrs⟩ := total_iff.mp hall
  obtain ⟨rs₀, a, ha, hun⟩ := (runs_calls_unfound he' [.insert k d] (.get k)).of_run hrun
  dsimp only at ha hrs
  obtain ⟨-, hlast⟩ := List.append_inj' (show rs₀ ++ [a] = [⟨success, none⟩] ++ [⟨success, some d⟩]
    from ha.symm.trans hrs) rfl
  cases hlast
  exact absurd (show success = hiErrNokey from congrArg Result.status hun) (by decide)

/-- A table of one bucket for one of the variants. -/
def oneVariant (e : CollEng) (slots : UInt32) : HiInitSet := { oneArray slots with collEng := e }

theorem array_variants_lose_keys_one : ∃ (h : HiHandle String) (w : World),
    (hiCreate (oneVariant .arrayDyn 2)).run (World.start fun _ _ => 0) = .ok (.ok h, w) ∧
      (∀ (k : Key) (d : String),
        ¬ Total (Prog.calls MapOp.call [.insert k d, .get k] h) w fun r _ =>
          r.1 = [⟨success, none⟩, ⟨success, some d⟩]) ∧
      ∀ ops op, ¬ (mapSession h.keyCmp ops).2.Absent op.key → ¬ AnswersAsMap h w (ops ++ [op]) := by
  obtain ⟨h, w, hcreate⟩ : ∃ (h : HiHandle String) (w : World),
      (hiCreate (oneVariant .arrayDyn 2)).run (World.start fun _ _ => 0) = .ok (.ok h, w) :=
    ⟨_, _, rfl⟩
  exact ⟨h, w, hcreate, array_variants_lose_keys (.inr (.inl rfl)) hcreate⟩

/-- The pair is stored, not found, stored once more and not removed. Without an array size it is not
even stored: doubling leaves no slots. -/
theorem array_variants_lose_stored_key :
    (∃ h w rs h' w', (hiCreate (oneVariant .arrayDyn 2)).run (World.start fun _ _ => 0) =
        .ok (.ok h, w) ∧ w.AllocsSucceed ∧
      (Prog.calls MapOp.call [.insert ⟨[1, 0], by decide⟩ "one", .get ⟨[1, 0], by decide⟩,
        .insert ⟨[1, 0], by decide⟩ "one", .remove ⟨[1, 0], by decide⟩] h).run w =
        .ok ((rs, h'), w') ∧
      rs.map Result.status = [success, hiErrNokey, success, hiErrNokey]) ∧
    ∃ h w rs h' w', (hiCreate (oneVariant .arrayDyn 0)).run (World.start fun _ _ => 0) =
        .ok (.ok h, w) ∧ w.AllocsSucceed ∧
      (Prog.calls MapOp.call [.insert ⟨[1, 0], by decide⟩ "one"] h).run w = .ok ((rs, h'), w') ∧
      rs.map Result.status = [hiErrInternal] :=
  ⟨⟨_, _, _, _, _, rfl, fun _ => ⟨_, rfl⟩, rfl, rfl⟩, _, _, _, _, _, rfl, fun _ => ⟨_, rfl⟩, rfl, rfl⟩

end Hashish
