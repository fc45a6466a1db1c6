import Hashish.ArrayHoles
import Hashish.IteratorArrays

/-!
# Insertions without memory

An insertion that runs out of memory is to return an error code, to leave the table as it was, and to
succeed when it is repeated with memory (`InsertAtomic`).

`COLL_ENG_RBTREE` does so. The list engines leave the table as it was, but return the positive error
number of the allocator. `COLL_ENG_ARRAY` does so as long as the bucket has a free slot; an exhausted
bucket stays doubled, and is lost when there is no memory for it.

* `insert_atomic_iff`: exactly which insertions are atomic.
* `insert_not_atomic`: a list and an array table that break the rule.
-/

namespace Hashish

open Hashish.Lib

variable {δ : Type} {F : Fault → Prop} {w w' : World} {h : HiHandle δ} {k : Key} {d : δ}

/-- The key is not in the table. -/
def Lacks (h : HiHandle δ) (w : World) (k : Key) : Prop :=
  Partial (hiGet h k.bytes k.keylen) w fun r _ => r.1.status = hiErrNokey

theorem lacks_of_run {r : Result δ × HiHandle δ} (hrun : (hiGet h k.bytes k.keylen).run w = .ok (r, w'))
    (hr : r.1.status = hiErrNokey) : Lacks h w k :=
  .of_total (total_iff.mpr ⟨r, w', hrun, hr⟩)

/-- When an allocation fails, the insertion returns an error code and leaves the table as it was, and
repeated with replies `f` that are all blocks it succeeds. -/
def InsertAtomic (h : HiHandle δ) (w : World) (k : Key) (d : δ) : Prop :=
  Total (hiInsert h k.bytes k.keylen d) w fun r w' => w.SomeFailed w' →
    r.1 < 0 ∧ r.2 = h ∧ ∀ f : Nat → Reply, (∀ n, ∃ junk, f (w'.requests + n) = .block junk) →
      Total (hiInsert r.2 k.bytes k.keylen d) { w' with replies := f } fun q _ => q.1 = success

/-! ## How an insertion ends -/

/-- The insertion makes `n` requests, or one of them fails. It is `clean` when a failure is reported and
leaves the table as it was. -/
def Ends (n : Nat) (clean : Prop) (h : HiHandle δ) (w : World) (r : Int × HiHandle δ) (w' : World) :
    Prop :=
  (w.Served n w' ∧ (clean → r.1 = success)) ∨
  (∃ m < n, w.Refused m w' ∧ (r.1 < 0 ∧ r.2 = h ↔ clean))

/-- An insertion that ends so in all later worlds is atomic if it is clean or gets its memory. -/
theorem insertAtomic_iff_of_ends {n : Nat} {clean : Prop}
    (hends : ∀ w₁ : World, w.requests ≤ w₁.requests →
      Total (hiInsert h k.bytes k.keylen d) w₁ (Ends n clean h w₁)) :
    InsertAtomic h w k d ↔ clean ∨ w.Serves n := by
  obtain ⟨r, w', hrun, hend⟩ := total_iff.mp (hends w (Nat.le_refl _))
  have hw' : w ≤ w' := (hiInsert h k.bytes k.keylen d).grows hrun
  rcases hend with ⟨hserved, -⟩ | ⟨m, hm, hrefused, hclean⟩
  · refine iff_of_true ?_ (.inr hserved.serves)
    exact total_iff.mpr ⟨r, w', hrun, fun hfail => (hserved.not_someFailed hfail).elim⟩
  · rw [or_iff_left (hrefused.not_serves hm), ← hclean]
    constructor
    · intro hatomic
      have h₁ := hatomic.of_run hrun hrefused.someFailed
      exact ⟨h₁.1, h₁.2.1⟩
    · intro h₁
      refine total_iff.mpr ⟨r, w', hrun, fun _ => ⟨h₁.1, h₁.2, fun f hf => ?_⟩⟩
      rw [h₁.2]
      refine (hends { w' with replies := f } hw'.requests).imp fun q w'' h₂ => ?_
      rcases h₂ with ⟨-, hret⟩ | ⟨m', hm', hrefused', -⟩
      · exact hret (hclean.mp h₁)
      · exact (hrefused'.not_serves hm' fun i _ => hf i).elim

/-- Without automatic rehashing, an absent key is inserted by the engine. -/
theorem runs_hiInsert_absent {Q : Int × HiHandle δ → World → Prop} (hauto : h.rehashAuto = 0)
    (hlook : Runs F (hiLookup h k.bytes k.keylen) w fun ret w₁ => ret ≠ success ∧
      Runs F (engineInsert h k.bytes k.keylen d) w₁ Q) :
    Runs F (hiInsert h k.bytes k.keylen d) w Q := by
  unfold hiInsert hiInsertWith
  refine Runs.bind hlook fun ret w₁ _ h₁ => ?_
  rw [if_neg h₁.1, doRehash, if_pos hauto]
  exact h₁.2

/-! ## Linked tables -/

theorem ListRep.lacks_test {os : List (List (Obj δ))} {l : List (Obj δ)} (hr : ListRep h w os)
    (he : plainList h.collEng) (hu : h.tableSize ≠ 0) (hb : os[h.toUserSettings.bucket k]? = some l)
    (hk : Lacks h w k) : ∀ x ∈ l, keyTest h.keyCmp k x = false := by
  have hget : Total (hiGet h k.bytes k.keylen) w fun r _ =>
      r.1.status = success ∨ ∀ x ∈ l, keyTest h.keyCmp k x = false := by
    unfold hiGet lhiGetList
    rcases he with he | he
    · simp only [he, runs_bind, runs_bucketOf hu, runs_mutexLock]
      exact (hr.mono (w.le_log _)).runs_getHit hb keyHit_eq (fun hn _ _ _ _ => .inr hn)
        fun _ _ _ _ _ _ _ _ _ _ => .inl rfl
    · simp only [he, runs_bind, runs_bucketOf hu]
      exact hr.runs_getHitMtf hb keyHit_eq (fun hn _ _ _ _ => .inr hn)
        fun _ _ _ _ _ _ _ _ _ _ _ _ _ => .inl rfl
  obtain ⟨r, w', hrun, hout⟩ := total_iff.mp hget
  refine hout.resolve_left fun hs => ?_
  exact absurd ((hk.of_run hrun).symm.trans hs) (by decide)

/-- A list table reports the failure with a positive number. -/
theorem ListRep.ends {os : List (List (Obj δ))} {l : List (Obj δ)} (hr : ListRep h w os)
    (he : plainList h.collEng) (hu : h.tableSize ≠ 0) (hauto : h.rehashAuto = 0)
    (hb : os[h.toUserSettings.bucket k]? = some l) (hno : ∀ x ∈ l, keyTest h.keyCmp k x = false) :
    Total (hiInsert h k.bytes k.keylen d) w (Ends 2 False h w) := by
  have hinsert : ∀ w₁, w ≤ w₁ → w₁.requests = w.requests →
      Total (engineInsert h k.bytes k.keylen d) w₁ (Ends 2 False h w) := by
    intro w₁ hw₁ hn₁
    have hlist : Total (lhiInsertList h k.bytes k.keylen d) w₁ (Ends 2 False h w) := by
      refine (hr.mono hw₁).runs_lhiInsertList hu hb (fun ret m w₂ hret _ hm hs => ?_) ?_
      · have hs' := (World.Served.zero hn₁).refused hw₁ hs
        rw [Nat.zero_add] at hs'
        exact .inr ⟨m, hm, hs', iff_of_false (fun h₁ => by have := h₁.1; omega) id⟩
      · intro _ _ w₂ _ _ _ _ _ _ _ _ hs _
        have hs' := (World.Served.zero hn₁).trans hw₁ hs
        rw [Nat.zero_add] at hs'
        exact .inl ⟨hs', False.elim⟩
    unfold engineInsert
    rcases he with he | he <;>
    · simp only [he]
      exact hlist
  have hlook : Total (lhiLookupList h k.bytes k.keylen) (w.log (.lock h.mutexLock)) fun ret w₁ =>
      ret ≠ success ∧ w₁ = w.log (.lock h.mutexLock) := by
    unfold lhiLookupList
    refine runs_bind.mpr ((runs_bucketOf hu k).mpr ?_)
    rcases he with he | he <;>
    · simp only [he, runs_bind]
      refine (hr.mono (w.le_log _)).runs_seekBucket hb keyHit_eq
        (fun _ => ⟨(by decide : hiErrNokey ≠ success), rfl⟩) ?_
      intro l₁ x l₂ hl _ hx
      exact absurd hx (by simp [hno x (by simp [hl])])
  refine runs_hiInsert_absent hauto ?_
  have hend : ∀ ret w₁, ret ≠ success ∧ w₁ = w.log (.lock h.mutexLock) →
      ret ≠ success ∧ Total (engineInsert h k.bytes k.keylen d) (w₁.log (.unlock h.mutexLock))
        (Ends 2 False h w) := by
    rintro ret w₁ ⟨hne, rfl⟩
    exact ⟨hne, hinsert _ ((w.le_log _).trans (World.le_log _ _)) rfl⟩
  unfold hiLookup
  rcases he with he | he <;>
  · simp only [he, runs_bind, runs_mutexLock]
    exact hlook.imp hend

/-- A tree table reports the failure, and is left as it was. -/
theorem RbRep.ends {ts : List (ColorTree (RbObj δ))} {t : ColorTree (RbObj δ)} (hr : RbRep h w ts)
    (he : h.collEng = .rbtree) (hu : h.tableSize ≠ 0) (hauto : h.rehashAuto = 0)
    (hb : ts[h.toUserSettings.bucket k]? = some t) (hno : rbFind h.keyCmp k t = none) :
    Total (hiInsert h k.bytes k.keylen d) w (Ends 2 True h w) := by
  refine runs_hiInsert_absent hauto ?_
  unfold hiLookup engineInsert
  simp only [he]
  refine ⟨by decide, hr.runs_lhiInsertRbtree hu hb ?_ ?_ ?_⟩
  · rintro c col l x r w' rfl hs hp - -
    rw [hp.rbFind_plug, rbFind, if_pos (show h.keyCmp k.bytes x.key.bytes = 0 from hs)] at hno
    cases hno
  · intro _ n w' _ _ _ hn hs
    exact .inr ⟨n, hn, hs, iff_of_true ⟨(by decide : hiErrSystem < 0), rfl⟩ trivial⟩
  · intro _ _ _ h' w' _ _ _ _ _ _ _ _ hs _
    exact .inl ⟨hs, fun _ => rfl⟩

/-! ## Array tables -/

variable {bs : List (List (Option (Stored δ)))} {l : List (Option (Stored δ))}

theorem ArrayRep.max_ne {h' : HiHandle δ} {b : Nat} {m : UInt32} (hr : ArrayRep h bs)
    (hb : bs[b]? = some l) (hmax : h'.bucketArraySlotMax.cells[b]? = some m)
    (hm : m.toNat ≠ l.length) : h' ≠ h := by
  rintro rfl
  refine hm ?_
  rw [Option.some.inj (hmax.symm.trans (hr.max_of_bucket hb)), hr.toNat_max hb]

/-- The doubled bucket can be counted. -/
theorem ArrayRep.two_mul_lt {h' : HiHandle δ} {b : Nat} {l' : List (Option (Stored δ))}
    (hr : ArrayRep h' (bs.set b l')) (hb : bs[b]? = some l) (hno : none ∉ l)
    (hlen : l'.length = (grown l).length) : l'.length = 2 * l.length ∧ 2 * l.length < 2 ^ 32 := by
  have hmem : l' ∈ bs.set b l' :=
    List.mem_of_getElem? (List.getElem?_set_self (List.getElem?_eq_some_iff.mp hb).1)
  have hgrown : (grown l).length = 2 * l.length := by
    rw [grown_of_not_mem hno, List.length_append, List.length_replicate, ← Nat.two_mul]
  have := hr.fits l' hmem
  omega

/-- The requests that an insertion into the bucket makes. -/
def Requests (l : List (Option (Stored δ))) (n : Nat) : Prop :=
  (none ∈ l ∧ n = 1) ∨ (none ∉ l ∧ l.length < 2 ^ 31 ∧ n = 2) ∨
    (none ∉ l ∧ 2 ^ 31 ≤ l.length ∧ n = 1)

/-- An array table is left as it was if there is a free slot. -/
theorem ArrayRep.ends {n : Nat} (hr : ArrayRep h bs) (he : h.collEng = .array)
    (hu : h.tableSize ≠ 0) (hauto : h.rehashAuto = 0)
    (hb : bs[h.toUserSettings.bucket k]? = some l) (hno : h.keyCmp.find l.reduceOption k = none)
    (hn : Requests l n) :
    Total (hiInsert h k.bytes k.keylen d) w (Ends n (none ∈ l) h w) := by
  have hpos := List.length_pos_iff.mpr (hr.nonempty l (List.mem_of_getElem? hb))
  have hlt := hr.fits l (List.mem_of_getElem? hb)
  refine runs_hiInsert_absent hauto ?_
  unfold hiLookup engineInsert
  simp only [he]
  refine ⟨by decide, hr.runs_lhiInsertArray he hu hb (fun hf => (hf hno).elim) ?_ ?_ ?_ ?_⟩
  · intro _ hfull w' _ hs
    refine .inr ⟨0, ?_, hs, iff_of_false (fun h₁ => ?_) hfull⟩
    · rcases hn with ⟨-, rfl⟩ | ⟨-, -, rfl⟩ | ⟨-, -, rfl⟩ <;> decide
    refine hr.max_ne hb (m := UInt32.ofNat l.length <<< 1) ?_ ?_ h₁.2
    · refine List.getElem?_set_self ?_
      rw [hr.maxs, List.length_map]
      exact (List.getElem?_eq_some_iff.mp hb).1
    · rw [UInt32.toNat_shiftLeft, hr.toNat_max hb, show (1 : UInt32).toNat % 32 = 1 from rfl,
        Nat.shiftLeft_eq]
      omega
  · rintro _ hfull hwrap h' w' _ hs -
    rcases hn with ⟨hfree, -⟩ | ⟨-, hlt, -⟩ | ⟨-, -, rfl⟩
    · exact (hfull hfree).elim
    · exact (Nat.not_lt.mpr hwrap hlt).elim
    · exact .inl ⟨hs, fun hfree => (hfull hfree).elim⟩
  · rintro _ m h' w' _ (⟨hfree, rfl⟩ | ⟨hfull, rfl⟩) hs - hsame hr'
    · obtain rfl : n = 1 := by
        rcases hn with ⟨-, rfl⟩ | ⟨hfull, -⟩ | ⟨hfull, -⟩
        · rfl
        · exact (hfull hfree).elim
        · exact (hfull hfree).elim
      exact .inr ⟨0, by decide, hs, iff_of_true ⟨(by decide : hiErrSystem < 0), hsame hfree⟩ hfree⟩
    · obtain ⟨hlen, hfits⟩ := hr'.two_mul_lt hb hfull rfl
      obtain rfl : n = 2 := by
        rcases hn with ⟨hfree, -⟩ | ⟨-, -, rfl⟩ | ⟨-, hwrap, -⟩
        · exact (hfull hfree).elim
        · rfl
        · omega
      refine .inr ⟨1, by decide, hs, iff_of_false (fun h₁ => ?_) hfull⟩
      have hb' := List.getElem?_set_self (a := grown l) (List.getElem?_eq_some_iff.mp hb).1
      refine hr.max_ne hb (hr'.max_of_bucket hb') ?_ h₁.2
      rw [hr'.toNat_max hb']
      omega
  · rintro _ x p q m h' w' _ (⟨hfree, rfl⟩ | ⟨hfull, rfl⟩) hs - hpq - hr' -
    · rcases hn with ⟨-, rfl⟩ | ⟨hfull, -⟩ | ⟨hfull, -⟩
      · exact .inl ⟨hs, fun _ => rfl⟩
      · exact (hfull hfree).elim
      · exact (hfull hfree).elim
    · obtain ⟨-, hfits⟩ := hr'.two_mul_lt hb hfull (by rw [hpq]; simp)
      rcases hn with ⟨hfree, -⟩ | ⟨-, -, rfl⟩ | ⟨-, hwrap, -⟩
      · exact (hfull hfree).elim
      · exact .inl ⟨hs, fun _ => rfl⟩
      · omega

/-- An absent key is in no slot of its bucket. -/
theorem ArrayRep.lacks_find (hr : ArrayRep h bs) (he : h.collEng = .array) (hu : h.tableSize ≠ 0)
    (hb : bs[h.toUserSettings.bucket k]? = some l) (hk : Lacks h w k) :
    h.keyCmp.find l.reduceOption k = none := by
  have hget : Total (hiGet h k.bytes k.keylen) w fun r _ =>
      r.1 = resultOf (h.keyCmp.find l.reduceOption k) := by
    unfold hiGet
    simp only [he]
    refine runs_bind.mpr ((hr.runs_lhiGetArray he hu hb).imp fun r _ h' => ?_)
    exact h'.1
  obtain ⟨r, w', hrun, hres⟩ := total_iff.mp hget
  have hstatus := hk.of_run hrun
  rw [hres] at hstatus
  cases hf : h.keyCmp.find l.reduceOption k with
  | none => rfl
  | some x =>
    rw [hf] at hstatus
    exact absurd (show success = hiErrNokey from hstatus) (by decide)

/-- A search for an absent key ends at an empty link. -/
theorem RbRep.lacks_find {ts : List (ColorTree (RbObj δ))} {t : ColorTree (RbObj δ)}
    (hr : RbRep h w ts) (he : h.collEng = .rbtree) (hu : h.tableSize ≠ 0)
    (hb : ts[h.toUserSettings.bucket k]? = some t) (hk : Lacks h w k) :
    rbFind h.keyCmp k t = none := by
  have hget : Total (hiGet h k.bytes k.keylen) w fun r _ =>
      r.1.status = success ∨ rbFind h.keyCmp k t = none := by
    unfold hiGet
    simp only [he]
    refine runs_bind.mpr (hr.runs_lhiGetRbtree hu hb (fun c w' ht hp _ _ => .inr ?_)
      fun _ _ _ _ _ _ _ _ _ _ _ => .inl rfl)
    rw [ht, hp.rbFind_plug]
    rfl
  obtain ⟨r, w', hrun, hout⟩ := total_iff.mp hget
  refine hout.resolve_left fun hs => ?_
  exact absurd ((hk.of_run hrun).symm.trans hs) (by decide)

/-! ## Runs -/

/-- A further condition under which an insertion keeps the invariant. -/
theorem Upkeep.or {e : UserSettings → Prop} {Inv : HiHandle δ → World → Prop}
    {Ok Also : HiHandle δ → World → Key → Int → Prop} (K : Upkeep e Inv Ok)
    (halso : ∀ {h w} (k : Key) (d : δ), e h.toUserSettings → h.tableSize ≠ 0 → Inv h w →
      Partial (engineInsert h k.bytes k.keylen d) w fun r w' => Also h w k r.1 → Inv r.2 w') :
    Upkeep e Inv fun h w k ret => Also h w k ret ∨ Ok h w k ret where
  engines := K.engines
  resize := K.resize
  mono := K.mono
  relabel := K.relabel
  get := K.get
  remove := K.remove
  create := K.create
  snapshots := K.snapshots
  insert k d he hu hr := by
    refine ((K.insert k d he hu hr).and_returned (halso k d he hu hr)).imp fun r w' h' => ?_
    obtain ⟨⟨hset, hok⟩, halso⟩ := h'
    refine ⟨hset, fun hor => ?_⟩
    rcases hor with hsuccess | hor | hor
    · exact hok (.inl hsuccess)
    · exact halso hor
    · exact hok (.inr hor)

/-- Finding the key keeps the buckets laid out. -/
theorem arrayUpkeep_dup :
    Upkeep (fun u => u.collEng = .array ∧ u.collEngArraySize ≠ 0)
      (fun (h : HiHandle δ) _ => ∃ bs, ArrayRep h bs)
      (fun h w k ret => ret = hiErrDupkey ∨ ArrayKept h w k ret) := by
  refine arrayUpkeep.or ?_
  rintro h w k d he hu ⟨bs, hr⟩
  obtain ⟨l, hb⟩ := hr.exists_bucket hu k
  unfold engineInsert
  rw [he.1]
  refine hr.runs_lhiInsertArray he.1 hu hb (fun _ _ _ _ _ => ⟨bs, hr⟩) ?_ ?_ ?_ ?_
  · exact fun _ _ _ _ _ hd => absurd (show hiErrSystem = hiErrDupkey from hd) (by decide)
  · exact fun _ _ _ _ _ _ _ _ hd => absurd (show hiErrInternal = hiErrDupkey from hd) (by decide)
  · exact fun _ _ _ _ _ _ _ _ _ _ hd =>
      absurd (show hiErrSystem = hiErrDupkey from hd) (by decide)
  · exact fun _ _ _ _ _ _ _ _ _ _ _ _ _ _ _ hd =>
      absurd (show success = hiErrDupkey from hd) (by decide)

/-- The condition on the calls before: no insertion loses an exhausted bucket of an array table. -/
def InsertKept (h : HiHandle δ) (w : World) (op : TableOp δ) : Prop :=
  match op with
  | .map (.insert k _) => h.collEng = .array →
      h.HasRoom k ∨ h.Has w k ∨ (h.CanDoubleSlots k ∧ w.Serves 1)
  | _ => True

/-- The condition on an insertion of an absent key. -/
def AtomicWhen (h : HiHandle δ) (w : World) (k : Key) : Prop :=
  match h.collEng with
  | .rbtree => True
  | .array => h.HasRoom k ∨ (h.CanDoubleSlots k ∧ w.Serves 2) ∨ (¬ h.CanDoubleSlots k ∧ w.Serves 1)
  | _ => w.Serves 2

/-- An insertion into an array table that finds the key says so. -/
theorem runs_insert_has (he : h.collEng = .array) (hauto : h.rehashAuto = 0) (hk : h.Has w k) :
    Partial (hiInsert h k.bytes k.keylen d) w fun r _ => r.1 = hiErrDupkey := by
  obtain ⟨q, w₂, hget, hfound⟩ := hk
  have hfinds : Total (lhiGetArray h k.bytes k.keylen) w fun r _ => r.status = success := by
    have hall : Total (hiGet h k.bytes k.keylen) w fun r _ => r.1.status = success :=
      total_iff.mpr ⟨q, w₂, hget, hfound⟩
    unfold hiGet at hall
    simpa only [he, runs_bind, runs_pure] using hall
  refine runs_hiInsert_absent hauto ?_
  unfold hiLookup engineInsert
  simp only [he]
  refine ⟨by decide, ?_⟩
  unfold lhiInsertArray
  rw [runs_bind]
  by_cases hu : h.tableSize = 0
  · exact runs_bucketOf_zero hu
  rw [runs_bucketOf hu]
  refine Runs.bind (.of_total hfinds) fun found w₁ _ h₁ => ?_
  rw [if_pos h₁]
  rfl

theorem InsertKept.keptBy {op : TableOp δ} {r : Result δ × HiHandle δ} (hok : InsertKept h w op)
    (he : h.collEng = .array) (hauto : h.rehashAuto = 0) (hrun : (op.call h).run w = .ok (r, w')) :
    Upkeep.KeptBy (fun h w k ret => ret = hiErrDupkey ∨ ArrayKept h w k ret) h w op r.1.status := by
  cases op with
  | rehash n => trivial
  | map op =>
    cases op with
    | get k => trivial
    | remove k => trivial
    | insert k d =>
      refine .inr (.inl ⟨hauto, fun found w₁ hlook => ?_⟩)
      obtain rfl : w = w₁ := by
        unfold hiLookup at hlook
        rw [he] at hlook
        cases hlook
        rfl
      rcases hok he with hroom | hhas | ⟨hdouble, hserves⟩
      · exact .inr ⟨.inr (.inl hroom), .inl hroom⟩
      · have hcall : Partial ((TableOp.map (.insert k d)).call h) w fun r _ =>
            r.1.status = hiErrDupkey :=
          runs_bind.mpr ((runs_insert_has he hauto hhas).imp fun _ _ h' => h')
        exact .inl (hcall.of_run hrun)
      · exact .inr ⟨.inr (.inr hdouble), .inr (hserves 0 Nat.zero_lt_one)⟩

/-- In every table that a session reaches: an insertion of an absent key that fails for lack of memory
reports an error code and leaves the table as it was exactly under the condition. -/
theorem insert_atomic_iff {s : HiInitSet} {u : UserSettings} (hs : lhiSetSanityCheck s = .ok u)
    (he : plainEngine u.collEng ∨ u.collEng = .array) (hauto : u.rehashAuto = 0)
    (hr : ReachedBy InsertKept s h w) (hk : Lacks h w k) :
    InsertAtomic h w k d ↔ AtomicWhen h w k := by
  have heng : ∀ {v : UserSettings}, Alike u v → v.collEng = u.collEng ∧ v.rehashAuto = 0 :=
    fun ha => ⟨(congrArg UserSettings.collEng ha :),
      (congrArg UserSettings.rehashAuto ha).trans hauto⟩
  rcases he with he | he
  · have hreached : Reached s h w := by
      obtain ⟨w₀, h₀, w₁, ops, rs, hcreate, hmeets, hrun⟩ := hr
      exact ⟨w₀, h₀, w₁, ops, rs, hcreate, Meets.of_forall fun _ _ _ _ => trivial, hrun⟩
    obtain ⟨halike, hu, bs, ⟨hl, os, hrep, -⟩ | ⟨he', ts, hrep, -⟩⟩ := hreached.stores hs he
    · obtain ⟨l, hb⟩ := hrep.exists_bucket hu k
      have hno := hrep.lacks_test hl hu hb hk
      rw [insertAtomic_iff_of_ends fun w₁ hw₁ =>
        (hrep.of_requests hw₁).ends hl hu (heng halike).2 hb hno, false_or, AtomicWhen]
      rcases hl with hl | hl <;> rw [hl]
    · obtain ⟨t, hb⟩ := hrep.exists_tree hu k
      have hno := hrep.lacks_find he' hu hb hk
      rw [insertAtomic_iff_of_ends fun w₁ hw₁ =>
        (hrep.of_requests hw₁).ends he' hu (heng halike).2 hb hno, AtomicWhen, he']
      exact iff_of_true (.inl trivial) trivial
  · have hslots := lhiSetSanityCheck_slots hs he
    obtain ⟨halike, hu, bs, hrep⟩ := arrayUpkeep_dup.reached hs ⟨he, hslots⟩
      (fun h' w' op r w'' ha hop hrun =>
        hop.keptBy ((heng ha).1.trans he) (heng ha).2 hrun) hr
    have he' : h.collEng = .array := (heng halike).1.trans he
    obtain ⟨l, hb⟩ := hrep.exists_bucket hu k
    have hno := hrep.lacks_find he' hu hb hk
    have hends : ∀ n, Requests l n → (InsertAtomic h w k d ↔ none ∈ l ∨ w.Serves n) := fun n hn =>
      insertAtomic_iff_of_ends fun w₁ _ => hrep.ends he' hu (heng halike).2 hb hno hn
    rw [AtomicWhen, he']
    dsimp only
    rw [hrep.hasRoom_iff hb, hrep.canDoubleSlots_iff hb]
    by_cases hfree : none ∈ l
    · rw [hends 1 (.inl ⟨hfree, rfl⟩)]
      exact iff_of_true (.inl hfree) (.inl hfree)
    · by_cases hlt : l.length < 2 ^ 31
      · rw [hends 2 (.inr (.inl ⟨hfree, hlt, rfl⟩))]
        simp only [hfree, hlt, true_and, not_true, false_and, or_false]
      · rw [hends 1 (.inr (.inr ⟨hfree, Nat.not_lt.mp hlt, rfl⟩))]
        simp only [hfree, hlt, false_and, not_false_eq_true, true_and, false_or]

/-- A table of one tree. -/
def oneTree : HiInitSet :=
  { oneList with collEng := .rbtree }

/-- The bucket of an inserted key has a slot left. -/
def TableOp.findsRoom (h : HiHandle δ) : TableOp δ → Bool
  | .map (.insert k _) =>
    match h.bucketArraySlotSize.cells[h.toUserSettings.bucket k]?,
        h.bucketArraySlotMax.cells[h.toUserSettings.bucket k]? with
    | some n, some m => n < m
    | _, _ => false
  | _ => true

theorem TableOp.insertKept_of_findsRoom {op : TableOp δ} (hop : op.findsRoom h = true) :
    InsertKept h w op := by
  cases op with
  | rehash n => trivial
  | map op =>
    cases op with
    | get k => trivial
    | remove k => trivial
    | insert k d =>
      refine fun _ => .inl ?_
      simp only [TableOp.findsRoom] at hop
      split at hop
      · rename_i n m hn hm
        exact ⟨n, m, hn, hm, of_decide_eq_true hop⟩
      · cases hop

/-- An array table of one bucket with two entries and two free slots, without memory for a third
entry. -/
theorem insert_atomic_iff_three :
    ∃ (h : HiHandle String) (w w' : World), ReachedBy InsertKept (oneArray 4) h w ∧
      h.noObjects = 2 ∧ InsertAtomic h w ⟨[3, 0], by decide⟩ "three" ∧
      (hiInsert h [3, 0] 2 "three").run w = .ok ((hiErrSystem, h), w') ∧ w.SomeFailed w' := by
  obtain ⟨h₀, w₀, rs, h, w, w', w₁, hcreate, hmet, hcalls, heng, hcount, hsizes, hmaxs, hbucket, hget,
      hrun, hfailed⟩ :
      ∃ (h₀ : HiHandle String) (w₀ : World) (rs : _) (h : HiHandle String) (w w' w₁ : World),
      (hiCreate (oneArray 4)).run (World.startFailing 10) = .ok (.ok h₀, w₀) ∧
      Prog.met TableOp.call Machine.any (fun _ h _ op => op.findsRoom h)
        [.map (.insert ⟨[1, 0], by decide⟩ "one"), .map (.insert ⟨[2, 0], by decide⟩ "two")]
        () h₀ w₀ = true ∧
      (Prog.calls TableOp.call [.map (.insert ⟨[1, 0], by decide⟩ "one"),
        .map (.insert ⟨[2, 0], by decide⟩ "two")] h₀).run w₀ = .ok ((rs, h), w) ∧
      h.collEng = .array ∧ h.noObjects = 2 ∧ h.bucketArraySlotSize.cells = [2] ∧
      h.bucketArraySlotMax.cells = [4] ∧ h.toUserSettings.bucket ⟨[3, 0], by decide⟩ = 0 ∧
      (hiGet h [3, 0] 2).run w = .ok ((⟨hiErrNokey, none⟩, h), w₁) ∧
      (hiInsert h [3, 0] 2 "three").run w = .ok ((hiErrSystem, h), w') ∧ w.SomeFailed w' :=
    ⟨_, _, _, _, _, _, _, rfl, rfl, rfl, rfl, rfl, rfl, rfl, rfl, rfl, rfl, 10, by decide, by decide,
      _, rfl⟩
  have hreach : ReachedBy InsertKept (oneArray 4) h w := by
    refine ⟨World.startFailing 10, h₀, w₀, _, rs, hcreate, .of_met (fun _ h w op _ hok => ?_) hmet,
      hcalls⟩
    exact TableOp.insertKept_of_findsRoom hok
  have hlacks : Lacks h w ⟨[3, 0], by decide⟩ := lacks_of_run hget rfl
  refine ⟨h, w, w', hreach, hcount, ?_, hrun, hfailed⟩
  obtain ⟨u, hs, he, hauto⟩ : ∃ u : UserSettings, lhiSetSanityCheck (oneArray 4) = .ok u ∧
      u.collEng = .array ∧ u.rehashAuto = 0 := ⟨_, rfl, rfl, rfl⟩
  refine (insert_atomic_iff hs (.inr he) hauto hreach hlacks).mpr ?_
  rw [AtomicWhen, heng]
  refine .inl ⟨2, 4, ?_, ?_, by decide⟩
  · rw [hsizes, hbucket]
    rfl
  · rw [hmaxs, hbucket]
    rfl

/-! ## Insertions that are not atomic -/

/-- A list table returns the positive error number of the allocator. An array table of one slot,
which is taken, loses the bucket. -/
theorem insert_not_atomic :
    (∃ (h : HiHandle String) (w w' : World), Reached oneList h w ∧
      Lacks h w ⟨[1, 0], by decide⟩ ∧ (hiInsert h [1, 0] 2 "one").run w = .ok ((12, h), w') ∧
      w.SomeFailed w' ∧ ¬ InsertAtomic h w ⟨[1, 0], by decide⟩ "one") ∧
    ∃ (h h' : HiHandle String) (w w' : World), Reached (oneArray 1) h w ∧
      Lacks h w ⟨[2, 0], by decide⟩ ∧
      (hiInsert h [2, 0] 2 "two").run w = .ok ((hiErrSystem, h'), w') ∧ w.SomeFailed w' ∧
      h.slotItems.length = 1 ∧ h'.slotItems.length = 0 ∧
      ¬ InsertAtomic h w ⟨[2, 0], by decide⟩ "two" := by
  constructor
  · obtain ⟨h, w, w', w₁, hcreate, hget, hrun, hfailed⟩ : ∃ (h : HiHandle String) (w w' w₁ : World),
        (hiCreate oneList).run (World.startFailing 5) = .ok (.ok h, w) ∧
        (hiGet h [1, 0] 2).run w = .ok ((⟨hiErrNokey, none⟩, h), w₁) ∧
        (hiInsert h [1, 0] 2 "one").run w = .ok ((12, h), w') ∧ w.SomeFailed w' :=
      ⟨_, _, _, _, rfl, rfl, rfl, 5, by decide, by decide, _, rfl⟩
    refine ⟨h, w, w', ⟨World.startFailing 5, h, w, [], [], hcreate, trivial, rfl⟩,
      lacks_of_run hget rfl, hrun, hfailed, fun hatomic => ?_⟩
    exact absurd (show (12 : Int) < 0 from (hatomic.of_run hrun hfailed).1) (by decide)
  · obtain ⟨h₀, w₁, rs, h, w, h', w', w₂, hcreate, hcalls, hget, hrun, hfailed, hone, hnone⟩ :
        ∃ (h₀ : HiHandle String) (w₁ : World) (rs : List (Result String)) (h : HiHandle String)
          (w : World) (h' : HiHandle String) (w' w₂ : World),
        (hiCreate (oneArray 1)).run (World.startFailing 9) = .ok (.ok h₀, w₁) ∧
        (Prog.calls TableOp.call [.map (.insert ⟨[1, 0], by decide⟩ "one")] h₀).run w₁ =
          .ok ((rs, h), w) ∧
        (hiGet h [2, 0] 2).run w = .ok ((⟨hiErrNokey, none⟩, h), w₂) ∧
        (hiInsert h [2, 0] 2 "two").run w = .ok ((hiErrSystem, h'), w') ∧ w.SomeFailed w' ∧
        h.slotItems.length = 1 ∧ h'.slotItems.length = 0 :=
      ⟨_, _, _, _, _, _, _, _, rfl, rfl, rfl, rfl, ⟨9, by decide, by decide, _, rfl⟩, rfl, rfl⟩
    have hreach : Reached (oneArray 1) h w := ⟨World.startFailing 9, h₀, w₁, _, rs, hcreate,
      Meets.of_forall fun _ _ _ _ => trivial, hcalls⟩
    refine ⟨h, h', w, w', hreach, lacks_of_run hget rfl, hrun, hfailed, hone, hnone, fun hatomic => ?_⟩
    have hsame : h' = h := (hatomic.of_run hrun hfailed).2.1
    rw [hsame, hone] at hnone
    cases hnone

end Hashish
