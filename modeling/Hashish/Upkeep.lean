import Hashish.Sessions

/-!
# Invariants of every call

`Upkeep e Inv Ok` says that the functions of the engines `e` keep the invariant `Inv`,
whatever the callbacks do, in every run that returns. An insertion that fails with the
status `ret` need not keep it, unless `Ok` holds of the state before it and of `ret`.

* `Upkeep.runs_hiRehash`: rehashing keeps the invariant, and leaves no table of size zero.
* `Upkeep.runs_call`: so does every call on a table.
* `Upkeep.runs_hiCreate`: a new handle satisfies it.
-/

namespace Hashish

open Hashish.Lib

variable {δ : Type} {w : World} {h : HiHandle δ} {e : UserSettings → Prop}
  {Inv : HiHandle δ → World → Prop} {Ok : HiHandle δ → World → Key → Int → Prop}

/-- The functions of the engines keep the invariant. -/
structure Upkeep (e : UserSettings → Prop) (Inv : HiHandle δ → World → Prop)
    (Ok : HiHandle δ → World → Key → Int → Prop) : Prop where
  engines : ∀ {u}, e u → u.collEng ≠ .unset ∧ u.collEng ≠ .max
  resize : ∀ {u} n a, e u → e { u with tableSize := n, rehashAuto := a }
  mono : ∀ {h w w'}, Inv h w → w ≤ w' → Inv h w'
  relabel : ∀ {h w} a p, Inv h w → Inv { h with rehashAuto := a, self := p } w
  get : ∀ {h w} (k : Key), e h.toUserSettings → h.tableSize ≠ 0 → Inv h w →
    Partial (hiGet h k.bytes k.keylen) w fun r w' =>
      r.2.toUserSettings = h.toUserSettings ∧ Inv r.2 w'
  remove : ∀ {h w} (k : Key), e h.toUserSettings → h.tableSize ≠ 0 → Inv h w →
    Partial (hiRemove h k.bytes k.keylen) w fun r w' =>
      r.2.toUserSettings = h.toUserSettings ∧ Inv r.2 w'
  insert : ∀ {h w} (k : Key) (d : δ), e h.toUserSettings → h.tableSize ≠ 0 → Inv h w →
    Partial (engineInsert h k.bytes k.keylen d) w fun r w' =>
      r.2.toUserSettings = h.toUserSettings ∧
      (r.1 = success ∨ Ok h w k r.1 → Inv r.2 w')
  create : ∀ {u : UserSettings} {p sizes lock} {w : World}, e u →
    Partial (createEng (HiHandle.ofSettings u p sizes lock : HiHandle δ)) w fun r w' =>
      (∃ ret, r = .error ret) ∨ ∃ h, r = .ok h ∧ h.toUserSettings = u ∧ Inv h w'
  snapshots : ∀ {h w}, e h.toUserSettings → Inv h w →
    ∃ (α : Type) (toArray : ToArray δ) (P : α → List (Stored δ) → Prop)
      (Bad : BucketArray δ → Prop) (bs : List α),
      Iterable (fun _ => True) toArray h w P Bad bs ∧ ∀ l s, P l s → s.length < 2 ^ 64

/-- There is no bucket in a table of size zero. -/
theorem runs_bucketOf_zero {key : Bytes} {keylen : UInt32} {Q : Nat → World → Prop}
    (hu : h.tableSize = 0) : Partial (h.bucketOf key keylen) w Q := by
  unfold HiHandle.bucketOf
  rw [umod, if_pos hu]
  exact trivial

/-- A table of size zero takes no insertion. -/
theorem runs_hiInsertWith_zero {rehash : HiHandle δ → UInt32 → Prog (Int × HiHandle δ)}
    {key : Bytes} {keylen : UInt32} {data : δ} (he : h.collEng ≠ .unset ∧ h.collEng ≠ .max)
    (hu : h.tableSize = 0) (hauto : h.rehashAuto = 0) :
    Partial (hiInsertWith rehash h key keylen data) w fun _ _ => False := by
  unfold hiInsertWith hiLookup doRehash engineInsert
  cases hc : h.collEng
  case unset => exact (he.1 hc).elim
  case max => exact (he.2 hc).elim
  case list | listHash | listMtf | listMtfHash =>
    simp only [runs_bind, runs_mutexLock]
    unfold lhiLookupList
    exact runs_bind.mpr (runs_bucketOf_zero hu)
  case array | arrayHash | arrayDyn | arrayDynHash =>
    simp only [runs_bind, runs_pure, if_neg (show ¬ failure = success by decide), if_pos hauto, hc]
    unfold lhiInsertArray
    exact runs_bind.mpr (runs_bucketOf_zero hu)
  case rbtree =>
    simp only [runs_bind, runs_pure, if_neg (show ¬ failure = success by decide), if_pos hauto, hc]
    unfold lhiInsertRbtree lhiInsertRbtreeNode
    exact runs_bind.mpr (runs_bind.mpr ((runs_bucketOf_zero hu).imp fun _ _ => False.elim))

/-- A session with the settings `s` has reached the handle, and each of its calls met the
condition `C`. -/
def ReachedBy (C : HiHandle δ → World → TableOp δ → Prop) (s : HiInitSet)
    (h : HiHandle δ) (w : World) : Prop :=
  ∃ w₀ h₀ w₁ ops rs, (hiCreate s).run w₀ = .ok (.ok h₀, w₁) ∧
    Meets TableOp.call Machine.any (fun _ => C) ops () h₀ w₁ ∧
    (Prog.calls TableOp.call ops h₀).run w₁ = .ok ((rs, h), w)

namespace Upkeep

variable (K : Upkeep e Inv Ok)
include K

/-! ## Creation -/

theorem runs_createWith {u : UserSettings} {p : Ptr} (he : e u) :
    Partial (createWith u p : Prog (Except Int (HiHandle δ))) w fun r w' =>
      (∃ ret, r = .error ret) ∨ ∃ h, r = .ok h ∧ h.toUserSettings = u ∧ Inv h w' := by
  unfold createWith
  refine runs_bind.mpr (runs_xallocAlign (fun _ w₁ _ _ _ _ => .inl ⟨_, rfl⟩) ?_)
  intro junk w₁ _ _ _
  refine runs_bind.mpr (runs_lhiPthreadLockInit (fun _ w₂ _ _ => .inl ⟨_, rfl⟩) ?_)
  intro lock w₂ _ _
  exact K.create he

theorem runs_hiCreate {s : HiInitSet} {u : UserSettings} (hs : lhiSetSanityCheck s = .ok u)
    (he : e u) :
    Partial (hiCreate s : Prog (Except Int (HiHandle δ))) w fun r w' =>
      (∃ ret, r = .error ret) ∨ ∃ h, r = .ok h ∧ h.toUserSettings = u ∧ Inv h w' := by
  unfold hiCreate lhiCreateVanillaHdnl
  rw [hs]
  refine runs_bind.mpr (runs_bind.mpr (runs_xallocAlign (fun _ w₁ _ _ _ _ => .inl ⟨_, rfl⟩) ?_))
  intro junk w₁ _ _ _
  exact K.runs_createWith he

/-! ## Rehashing -/

/-- An insertion that does not rehash. -/
theorem runs_hiInsertWith {rehash : HiHandle δ → UInt32 → Prog (Int × HiHandle δ)} {k : Key} {d : δ}
    (he : e h.toUserSettings) (hu : h.tableSize ≠ 0) (hr : Inv h w) (hauto : h.rehashAuto = 0) :
    Partial (hiInsertWith rehash h k.bytes k.keylen d) w fun r w' =>
      r.2.toUserSettings = h.toUserSettings ∧
      (r.1 = success ∨ (∀ found w₁, (hiLookup h k.bytes k.keylen).run w = .ok (found, w₁) →
        Ok h w₁ k r.1) → Inv r.2 w') := by
  unfold hiInsertWith
  have hlookup : Partial (hiLookup h k.bytes k.keylen) w fun found w₁ =>
      (hiLookup h k.bytes k.keylen).run w = .ok (found, w₁) := partial_iff.mpr fun _ _ h => h
  refine Runs.bind hlookup fun found w₁ hw₁ hrun => ?_
  have hr₁ := K.mono hr hw₁
  refine runs_ite.mpr ⟨fun _ => ⟨rfl, fun _ => hr₁⟩, fun _ => ?_⟩
  rw [doRehash, if_pos hauto, runs_bind, runs_pure]
  refine (K.insert k d he hu hr₁).imp fun r w₂ h₂ => ⟨h₂.1, fun hok => h₂.2 ?_⟩
  exact hok.imp_right fun hok => hok found w₁ hrun

/-- The insertions of the loop keep the invariant of the new table. A table of size zero does not
survive the first insertion. -/
theorem runs_rehashLoop {α : Type} {toArray : ToArray δ} {P : α → List (Stored δ) → Prop}
    {Bad : BucketArray δ → Prop} {bs : List α} {fuel : Nat} {i : HiIterator δ}
    {done : List (Stored δ)} {new : HiHandle δ}
    (ht : Iterable (fun _ => True) toArray h w P Bad bs) (hlen : ∀ l s, P l s → s.length < 2 ^ 64)
    (hi : IterAt P bs i done ∨ (Bad i.a ∧ i.a.nmemb ≠ 0)) (he : e new.toUserSettings)
    (hu : new.tableSize ≠ 0 ∨ i.a.nmemb ≠ 0) (hauto : new.rehashAuto = 0) (hnew : Inv new w) :
    Partial (rehashLoop h fuel i new) w fun r w' => ∀ new', r.2.2 = some new' →
      new'.tableSize ≠ 0 ∧ new'.toUserSettings = new.toUserSettings ∧ Inv new' w' := by
  induction fuel generalizing i done new w with
  | zero => exact trivial
  | succ fuel ih =>
    have hlen' : bs.length < 2 ^ 64 := by
      rw [ht.length]
      have := h.tableSize.toNat_lt
      omega
    -- An iterator that has a pair left hands one out.
    have hpair : Partial (hiIteratorGetnext h i) w fun r _ => i.a.nmemb ≠ 0 → r.2.1 ≠ none := by
      refine runs_ite.mpr ⟨fun _ => ?_, fun h₀ => ?_⟩
      · refine runs_bind.mpr (partial_iff.mpr fun q w₁ _ _ => ?_)
        exact Option.some_ne_none _
      · exact partial_iff.mpr fun _ _ _ hne => (h₀ hne).elim
    rw [rehashLoop]
    refine Runs.bind ((ht.runs_hiIteratorGetnext hi hlen' hlen).and_returned hpair) ?_
    rintro ⟨ret, next, i'⟩ w₁ hw₁ ⟨h₁, hsome⟩
    dsimp only at h₁ hsome ⊢
    have hnew₁ := K.mono hnew hw₁
    have hlast : next = none → new.tableSize ≠ 0 := fun hn => hu.resolve_right fun hne => hsome hne hn
    rcases h₁ with ⟨x, rfl, rfl, hi'⟩ | ⟨rfl, rfl, -⟩ | ⟨rfl, rfl, -⟩
    · dsimp only
      by_cases hz : new.tableSize = 0
      · refine Runs.bind (runs_hiInsertWith_zero (K.engines he) hz hauto) ?_
        exact fun _ _ _ hf => hf.elim
      refine Runs.bind (K.runs_hiInsertWith (k := x.key) (d := x.data) he hz hnew₁ hauto) ?_
      rintro ⟨ret, new₁⟩ w₂ hw₂ ⟨hu₁, hinv⟩
      dsimp only at hu₁ hinv ⊢
      refine runs_ite.mpr ⟨fun _ => ?_, fun hret => ?_⟩
      · -- The new table is given up.
        refine Runs.bind (Q := fun _ _ => True) partial_trivial fun _ w₃ _ _ => ?_
        refine Runs.bind (Q := fun _ _ => True) partial_trivial fun fini w₄ _ _ => ?_
        have hgone : ∀ {w₅}, Partial (pure (ret, i', none) : Prog _) w₅ fun r w' =>
            ∀ new', r.2.2 = some new' → new'.tableSize ≠ 0 ∧
              new'.toUserSettings = new.toUserSettings ∧ Inv new' w' :=
          fun new' h => (Option.some_ne_none new' h.symm).elim
        refine runs_ite.mpr ⟨fun _ => ?_, fun _ => ?_⟩
        · exact runs_bind.mpr (runs_record.mpr hgone)
        · exact runs_bind.mpr (runs_pure.mpr hgone)
      · have hz₁ : new₁.tableSize ≠ 0 := by
          rw [show new₁.tableSize = new.tableSize from (congrArg UserSettings.tableSize hu₁ :)]
          exact hz
        have he₁ : e new₁.toUserSettings := by
          rw [hu₁]
          exact he
        have hauto₁ : new₁.rehashAuto = 0 := by
          rw [show new₁.rehashAuto = new.rehashAuto from (congrArg UserSettings.rehashAuto hu₁ :)]
          exact hauto
        refine (ih (ht.mono (hw₁.trans hw₂)) (.inl hi') he₁ (.inl hz₁) hauto₁
          (hinv (.inl (not_not.mp hret)))).imp fun r w₃ h₃ new' hnew' => ?_
        obtain ⟨h₄, h₅, h₆⟩ := h₃ new' hnew'
        exact ⟨h₄, h₅.trans hu₁, h₆⟩
    · rintro new' ⟨⟩
      exact ⟨hlast rfl, rfl, hnew₁⟩
    · rintro new' ⟨⟩
      exact ⟨hlast rfl, rfl, hnew₁⟩

/-- Rehashing gives the old table, or a new one of another size that satisfies the invariant. -/
theorem runs_hiRehash {n : UInt32} (he : e h.toUserSettings) (hr : Inv h w) :
    Partial (hiRehash h n) w fun r w' => r.2 = h ∨ (r.1 = success ∧ r.2.tableSize ≠ 0 ∧
      r.2.toUserSettings = { h.toUserSettings with tableSize := n } ∧ Inv r.2 w') := by
  unfold hiRehash lhiCreateVanillaHdnl
  refine runs_bind.mpr (runs_bind.mpr (runs_xallocAlign (fun ret w₁ _ _ _ _ => .inl rfl) ?_))
  intro junk w₁ hw₁ _ _
  refine Runs.bind (K.runs_createWith (u := { h.toUserSettings with tableSize := n })
    (K.resize n h.rehashAuto he)) ?_
  rintro r w₂ hw₂ (⟨ret, rfl⟩ | ⟨new, rfl, hu, hnew⟩)
  · exact .inl rfl
  obtain ⟨α, toArray, P, Bad, bs, ht, hlen⟩ := K.snapshots he hr
  have ht₂ := ht.mono (hw₁.trans hw₂)
  refine Runs.bind ht₂.runs_hiIteratorCreate ?_
  rintro r w₃ hw₃ (⟨i, rfl, hi, hi₀⟩ | ⟨rfl, -⟩ | ⟨rfl, -⟩)
  · have hu₃ : ({ new with rehashAuto := 0 } : HiHandle δ).toUserSettings =
        { h.toUserSettings with tableSize := n, rehashAuto := 0 } := by
      show { new.toUserSettings with rehashAuto := 0 } = _
      rw [hu]
    have he₃ : e ({ new with rehashAuto := 0 } : HiHandle δ).toUserSettings := by
      rw [hu₃]
      exact K.resize n 0 he
    refine Runs.bind (K.runs_rehashLoop (ht₂.mono hw₃) hlen (hi.imp_right fun hb => ⟨hb, hi₀⟩) he₃
      (.inr hi₀) rfl (K.relabel 0 new.self (K.mono hnew hw₃))) ?_
    rintro ⟨ret, i', rebuilt⟩ w₄ hw₄ h₄
    dsimp only at h₄ ⊢
    cases rebuilt with
    | none => exact .inl rfl
    | some new' =>
      obtain ⟨hz, hu₄, hinv⟩ := h₄ new' rfl
      dsimp only
      refine Runs.bind (Q := fun _ _ => True) partial_trivial fun _ w₅ hw₅ _ => ?_
      refine runs_ite.mpr ⟨fun _ => .inl rfl, fun _ => ?_⟩
      refine Runs.bind (Q := fun _ _ => True) partial_trivial fun _ w₆ hw₆ _ => ?_
      refine .inr ⟨rfl, hz, ?_, ?_⟩
      · have hu₅ := hu₄.trans hu₃
        show { new'.toUserSettings with rehashAuto := h.rehashAuto } = _
        rw [hu₅]
      · exact K.relabel _ _ (K.mono hinv (hw₅.trans hw₆))
  · exact .inl rfl
  · exact .inl rfl

/-! ## Calls -/

theorem of_alike {u v : UserSettings} (he : e u) (hset : Alike u v) : e v := by
  rw [hset]
  exact K.resize v.tableSize u.rehashAuto he

omit K in
/-- The condition under which a call with the status `ret` keeps the invariant. -/
def KeptBy (Ok : HiHandle δ → World → Key → Int → Prop) (h : HiHandle δ) (w : World)
    (op : TableOp δ) (ret : Int) : Prop :=
  match op with
  | .map (.insert k _) => ret = success ∨
      (h.rehashAuto = 0 ∧ ∀ found w₁, (hiLookup h k.bytes k.keylen).run w = .ok (found, w₁) →
        Ok h w₁ k ret) ∨
      ∀ h' w', w ≤ w' → Ok h' w' k ret
  | _ => True

theorem runs_hiInsert {k : Key} {d : δ} (he : e h.toUserSettings) (hu : h.tableSize ≠ 0)
    (hr : Inv h w) :
    Partial (hiInsert h k.bytes k.keylen d) w fun r w' =>
      Alike h.toUserSettings r.2.toUserSettings ∧ r.2.tableSize ≠ 0 ∧
      (KeptBy Ok h w (.map (.insert k d)) r.1 → Inv r.2 w') := by
  by_cases hauto : h.rehashAuto = 0
  · refine (K.runs_hiInsertWith (d := d) he hu hr hauto).imp fun r w₁ h₁ => ⟨?_, ?_, fun hok => ?_⟩
    · rw [Alike, h₁.1]
    · rw [show r.2.tableSize = h.tableSize from (congrArg UserSettings.tableSize h₁.1 :)]
      exact hu
    · rcases hok with h₀ | ⟨-, hok⟩ | hok
      · exact h₁.2 (.inl h₀)
      · exact h₁.2 (.inr hok)
      · refine h₁.2 (.inr fun found w₂ hrun => hok h w₂ ?_)
        exact (hiLookup h k.bytes k.keylen).grows hrun
  unfold hiInsert hiInsertWith
  refine Runs.bind partial_trivial fun found w₁ hw₁ _ => ?_
  have hr₁ := K.mono hr hw₁
  refine runs_ite.mpr ⟨fun _ => ⟨rfl, hu, fun _ => hr₁⟩, fun _ => ?_⟩
  -- The insertion into a table that satisfies the invariant.
  have hins : ∀ {h' w'}, w ≤ w' → e h'.toUserSettings → h'.tableSize ≠ 0 → Inv h' w' →
      Alike h.toUserSettings h'.toUserSettings →
      Partial (engineInsert h' k.bytes k.keylen d) w' fun r w' =>
        Alike h.toUserSettings r.2.toUserSettings ∧ r.2.tableSize ≠ 0 ∧
        (KeptBy Ok h w (.map (.insert k d)) r.1 → Inv r.2 w') := by
    intro h' w' hw' he' hu' hr' hset
    refine (K.insert k d he' hu' hr').imp fun r w₂ h₂ => ⟨?_, ?_, fun hok => ?_⟩
    · rw [h₂.1]
      exact hset
    · rw [show r.2.tableSize = h'.tableSize from (congrArg UserSettings.tableSize h₂.1 :)]
      exact hu'
    · rcases hok with h₀ | ⟨h₀, -⟩ | hok
      · exact h₂.2 (.inl h₀)
      · exact (hauto h₀).elim
      · exact h₂.2 (.inr (hok h' w' hw'))
  refine runs_bind.mpr (runs_doRehash hu (fun _ => ?_) fun _ => hins hw₁ he hu hr₁ rfl)
  refine (K.runs_hiRehash he hr₁).and_grows.imp ?_
  rintro ⟨ret, h'⟩ w₂ ⟨hw₂, rfl | ⟨-, hu', hset, hr'⟩⟩
  · exact hins (hw₁.trans hw₂) he hu (K.mono hr₁ hw₂) rfl
  · have hset' : Alike h.toUserSettings h'.toUserSettings := by rw [Alike, hset]
    exact hins (hw₁.trans hw₂) (K.of_alike he hset') hu' hr' hset'

/-- Every call on a table keeps the invariant and the settings. -/
theorem runs_call (op : TableOp δ) (he : e h.toUserSettings) (hu : h.tableSize ≠ 0) (hr : Inv h w) :
    Partial (op.call h) w fun r w' =>
      Alike h.toUserSettings r.2.toUserSettings ∧ r.2.tableSize ≠ 0 ∧
      (KeptBy Ok h w op r.1.status → Inv r.2 w') := by
  have hsame : ∀ {h' : HiHandle δ}, h'.toUserSettings = h.toUserSettings →
      Alike h.toUserSettings h'.toUserSettings ∧ h'.tableSize ≠ 0 := by
    intro h' hset
    refine ⟨by rw [Alike, hset], ?_⟩
    rw [show h'.tableSize = h.tableSize from (congrArg UserSettings.tableSize hset :)]
    exact hu
  cases op with
  | rehash n =>
    refine runs_bind.mpr ((K.runs_hiRehash he hr).and_grows.imp ?_)
    rintro ⟨ret, h'⟩ w' ⟨hw, rfl | ⟨-, hu', hset, hr'⟩⟩
    · exact ⟨rfl, hu, fun _ => K.mono hr hw⟩
    · exact ⟨by rw [Alike, hset], hu', fun _ => hr'⟩
  | map op =>
    cases op with
    | insert k d => exact runs_bind.mpr (K.runs_hiInsert he hu hr)
    | get k =>
      refine (K.get k he hu hr).imp fun r w' h' => ?_
      exact ⟨(hsame h'.1).1, (hsame h'.1).2, fun _ => h'.2⟩
    | remove k =>
      refine (K.remove k he hu hr).imp fun r w' h' => ?_
      exact ⟨(hsame h'.1).1, (hsame h'.1).2, fun _ => h'.2⟩

/-- Every run of calls that keep the invariant keeps it. -/
theorem runs_calls {C : HiHandle δ → World → TableOp δ → Prop} {ops : List (TableOp δ)}
    (he : e h.toUserSettings) (hu : h.tableSize ≠ 0) (hr : Inv h w)
    (hC : ∀ h' w' op r w'', Alike h.toUserSettings h'.toUserSettings → C h' w' op →
      (op.call h').run w' = .ok (r, w'') → KeptBy Ok h' w' op r.1.status)
    (hok : Meets TableOp.call Machine.any (fun _ => C) ops () h w) :
    Partial (Prog.calls TableOp.call ops h) w fun r w' =>
      Alike h.toUserSettings r.2.toUserSettings ∧ r.2.tableSize ≠ 0 ∧ Inv r.2 w' := by
  have hstart : Alike h.toUserSettings h.toUserSettings ∧ h.tableSize ≠ 0 ∧ Inv h w := ⟨rfl, hu, hr⟩
  refine (Lib.runs_calls (R := fun h' w' _ => Alike h.toUserSettings h'.toUserSettings ∧
    h'.tableSize ≠ 0 ∧ Inv h' w') hstart hok fun op h₁ w₁ _ hR hop => ?_).imp ?_
  · obtain ⟨hset, hu₁, hr₁⟩ := hR
    have he₁ := K.of_alike he hset
    have hrun : Partial (op.call h₁) w₁ fun r _ => KeptBy Ok h₁ w₁ op r.1.status :=
      partial_iff.mpr fun r w₂ hrun => hC h₁ w₁ op r w₂ hset hop hrun
    refine ((K.runs_call op he₁ hu₁ hr₁).and_returned hrun).imp fun r w₂ h₂ => ?_
    obtain ⟨⟨hset₂, hu₂, hinv⟩, hkept⟩ := h₂
    exact ⟨trivial, by rw [Alike, hset₂, hset], hu₂, hinv hkept⟩
  · rintro r w' ⟨_, -, h'⟩
    exact h'

/-- Every handle that a session reaches satisfies the invariant. -/
theorem reached {C : HiHandle δ → World → TableOp δ → Prop} {s : HiInitSet} {u : UserSettings}
    (hs : lhiSetSanityCheck s = .ok u) (he : e u)
    (hC : ∀ h w op r w', Alike u h.toUserSettings → C h w op → (op.call h).run w = .ok (r, w') →
      KeptBy Ok h w op r.1.status)
    (hr : ReachedBy C s h w) : Alike u h.toUserSettings ∧ h.tableSize ≠ 0 ∧ Inv h w := by
  obtain ⟨w₀, h₀, w₁, ops, rs, hcreate, hmeets, hrun⟩ := hr
  rcases (K.runs_hiCreate hs he).of_run hcreate with ⟨ret, hret⟩ | ⟨h₁, h₁', hu, hinv⟩
  · cases hret
  cases h₁'
  have hsize : h₀.tableSize ≠ 0 := by
    rw [show h₀.tableSize = u.tableSize from congrArg UserSettings.tableSize hu]
    exact (lhiSetSanityCheck_ok hs).1
  have hend := (K.runs_calls (hu ▸ he) hsize hinv (hu ▸ hC) hmeets).of_run hrun
  exact ⟨hu ▸ hend.1, hend.2.1, hend.2.2⟩

end Upkeep

end Hashish
