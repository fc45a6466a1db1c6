import Hashish.RehashCorrectness
import Mathlib.Algebra.BigOperators.Ring.List

/-!
# When rehashing succeeds

`hi_rehash` walks over the old table with an iterator, which cannot be created for a
table whose buckets all count as empty. A table that has an entry is rehashed as long
as there is memory: its keys are pairwise different, so no insertion into the new table
finds its key there.

* `Reached.distinct`: the keys of a table that calls have reached are pairwise different.
* `rehash_succeeds_iff`: `hi_rehash` succeeds exactly on the tables of `CanRehash`.
-/

namespace Hashish

open Hashish.Lib

variable {δ : Type} {w : World} {h : HiHandle δ} {bs : List (List (Stored δ))}

/-- What the callbacks are to satisfy: comparing is an equivalence, keys that compare equal have
equal hashes, and for trees comparing is an order. -/
structure KeyContract (f : HashFunc) (cmp : KeyCmp) (e : CollEng) : Prop where
  equivalence : Equivalence cmp.same
  hash : ∀ k k', cmp.same k k' → f.hash k = f.hash k'
  order : e = .rbtree → OrderOn cmp fun _ => True

/-! ## Keys that are pairwise different -/

/-- No key occurs twice. -/
def KeyCmp.Distinct (cmp : KeyCmp) (E : List (Stored δ)) : Prop :=
  E.Pairwise fun x y => ¬ cmp.same x.key y.key

/-- The pairs `E'` are among the pairs `E`. -/
def Within (E' E : List (Stored δ)) : Prop := (E'.map Stored.pair).Subperm (E.map Stored.pair)

section Distinct

variable {cmp : KeyCmp} {E E' : List (Stored δ)} {k : Key}

theorem Within.of_perm (h : E'.Perm E) : Within E' E := (h.map _).subperm

theorem Within.of_subperm (h : E'.Subperm E) : Within E' E := by
  obtain ⟨l, hperm, hsub⟩ := h
  exact ⟨_, hperm.map _, hsub.map _⟩

theorem KeyCmp.Distinct.within (heq : Equivalence cmp.same) (h : cmp.Distinct E) (hw : Within E' E) :
    cmp.Distinct E' := by
  obtain ⟨ps, hperm, hsub⟩ := hw
  have hpairs : (E.map Stored.pair).Pairwise fun p q => ¬ cmp.same p.1 q.1 := List.pairwise_map.mpr h
  exact List.pairwise_map.mp (hperm.pairwise (hpairs.sublist hsub) fun hn hs => hn (heq.symm hs))

theorem Within.find_none (hw : Within E' E) (h : cmp.find E k = none) : cmp.find E' k = none := by
  refine KeyCmp.find_eq_none.mpr fun x hx => ?_
  obtain ⟨y, hy, hpair⟩ := List.mem_map.mp (hw.subset (List.mem_map_of_mem hx))
  rw [← show y.key = x.key from congrArg Prod.fst hpair]
  exact KeyCmp.find_eq_none.mp h y hy

/-- A key that is not found is different from all keys. -/
theorem KeyCmp.Distinct.cons {x : Stored δ} (h : cmp.Distinct E) (hx : cmp.find E x.key = none) :
    cmp.Distinct (x :: E) :=
  List.pairwise_cons.mpr ⟨KeyCmp.find_eq_none.mp hx, h⟩

end Distinct

/-! ## Calls keep the keys different -/

namespace Engine

variable {G : Engine δ} {f : HashFunc} {cmp : KeyCmp}

/-- The table belongs to the engine, and its keys are pairwise different. -/
structure Tidy (G : Engine δ) (f : HashFunc) (cmp : KeyCmp) (h : HiHandle δ) (w : World)
    (bs : List (List (Stored δ))) : Prop where
  covered : G.covers h.collEng
  hashFunc : h.hashFunc = f
  keyCmp : h.keyCmp = cmp
  tableSize : h.tableSize ≠ 0
  rep : G.Rep h w bs
  distinct : cmp.Distinct bs.flatten

variable (heq : Equivalence cmp.same) (had : G.Admits f cmp fun _ => True)
  (hst : ∀ {h w bs}, G.covers h.collEng → G.Rep h w bs → Stores h w bs)

theorem Tidy.admits (ht : G.Tidy f cmp h w bs) (had : G.Admits f cmp fun _ => True) (S : Key → Prop) :
    G.Admits h.hashFunc h.keyCmp S := by
  rw [ht.hashFunc, ht.keyCmp]
  exact G.admits_mono had fun _ _ => trivial

/-- The same settings, but for the size of the table. -/
theorem Tidy.alike (ht : G.Tidy f cmp h w bs) {h' : HiHandle δ} {w' : World}
    {bs' : List (List (Stored δ))} (hset : Alike h.toUserSettings h'.toUserSettings)
    (hu : h'.tableSize ≠ 0) (hrep : G.Rep h' w' bs') (hd : cmp.Distinct bs'.flatten) :
    G.Tidy f cmp h' w' bs' where
  covered := by
    rw [show h'.collEng = h.collEng from (congrArg UserSettings.collEng hset :)]
    exact ht.covered
  hashFunc := (congrArg UserSettings.hashFunc hset :).trans ht.hashFunc
  keyCmp := (congrArg UserSettings.keyCmp hset :).trans ht.keyCmp
  tableSize := hu
  rep := hrep
  distinct := hd

include heq had hst

/-- Rehashing keeps pairs, or loses some. -/
theorem Tidy.runs_hiRehash (ht : G.Tidy f cmp h w bs) (n : UInt32) :
    Partial (hiRehash h n) w fun r w' =>
      ∃ bs', G.Tidy f cmp r.2 w' bs' ∧ Within bs'.flatten bs.flatten := by
  by_cases hn : n = 0
  · subst hn
    refine (storesUpkeep.runs_hiRehash (hst ht.covered ht.rep).engine
      ⟨bs, hst ht.covered ht.rep⟩).and_grows.imp ?_
    rintro ⟨ret, h'⟩ w' ⟨hw, rfl | ⟨-, hu, hset, -⟩⟩
    · exact ⟨bs, { ht with rep := G.mono ht.rep hw }, .of_perm (.refl _)⟩
    · exact (hu (congrArg UserSettings.tableSize hset :)).elim
  · have hit : Iterable (fun _ => True) G.toArray h w (G.Snap h bs) (fun _ => False) bs :=
      G.iterable ht.covered ht.rep (fun _ _ _ hs => hs) fun _ _ _ _ => trivial
    refine (G.runs_hiRehash ht.covered ht.rep (.inl hn)
      (fun _ _ => ht.admits had _) hit).and_grows.imp ?_
    rintro ⟨ret, h'⟩ w' ⟨hw, ⟨-, -, hset, bs', ss, hrep, hss, hperm, -⟩ | ⟨-, rfl, -⟩⟩
    · have hwithin : Within bs'.flatten bs.flatten :=
        hperm.subperm.trans (Within.of_subperm (flatten_subperm hss fun _ _ hs => hs.subperm))
      refine ⟨bs', ht.alike ?_ ?_ hrep (ht.distinct.within heq hwithin), hwithin⟩
      · rw [Alike, hset]
      · rw [show h'.tableSize = n from (congrArg UserSettings.tableSize hset :)]
        exact hn
    · exact ⟨bs, { ht with rep := G.mono ht.rep hw }, .of_perm (.refl _)⟩

omit hst in
/-- The insertion of a key that is not there, or that the engine notices. -/
theorem Tidy.runs_engineInsert (ht : G.Tidy f cmp h w bs) {k : Key} {d : δ}
    (hl : G.lateDup ∨ cmp.find bs.flatten k = none) :
    Partial (engineInsert h k.bytes k.keylen d) w fun r w' =>
      r.2.toUserSettings = h.toUserSettings ∧ ∃ bs', G.Tidy f cmp r.2 w' bs' := by
  have hrun := G.runs_engineInsert (k := k) (d := d) ht.covered ht.rep ht.tableSize
    (ht.admits had _) (by rwa [ht.keyCmp])
  refine Runs.of_total (hrun.and_grows.imp ?_)
  rintro ⟨ret, h'⟩ w' ⟨hw, ⟨-, he⟩ | ⟨hf, -, hset, x, bs', hx, hrep, hperm, -⟩ | ⟨-, -, -, -, rfl⟩⟩
  · cases he
    exact ⟨rfl, bs, { ht with rep := G.mono ht.rep hw }⟩
  · have hkey : x.key = k := congrArg Prod.fst hx
    rw [ht.keyCmp, ← hkey] at hf
    refine ⟨hset, bs', ht.alike ?_ ?_ hrep ?_⟩
    · rw [Alike, hset]
    · rw [show h'.tableSize = h.tableSize from (congrArg UserSettings.tableSize hset :)]
      exact ht.tableSize
    · exact (ht.distinct.cons hf).within heq (.of_perm hperm)
  · exact ⟨rfl, bs, { ht with rep := G.mono ht.rep hw }⟩

theorem Tidy.runs_hiInsert (ht : G.Tidy f cmp h w bs) (k : Key) (d : δ) :
    Partial (hiInsert h k.bytes k.keylen d) w fun r w' => ∃ bs', G.Tidy f cmp r.2 w' bs' := by
  unfold hiInsert hiInsertWith
  refine Runs.bind (Runs.of_total (G.lookup ht.covered ht.rep ht.tableSize (ht.admits had _)))
    fun found w₁ hw₁ h₁ => ?_
  have ht₁ : G.Tidy f cmp h w₁ bs := { ht with rep := G.mono ht.rep hw₁ }
  rcases h₁ with ⟨rfl, -⟩ | ⟨hne, hl⟩
  · rw [if_pos rfl]
    exact ⟨bs, ht₁⟩
  rw [ht.keyCmp] at hl
  rw [if_neg hne]
  refine runs_bind.mpr (runs_doRehash ht.tableSize (fun _ => ?_) fun _ => ?_)
  · refine (ht₁.runs_hiRehash heq had hst _).imp fun r w₂ h₂ => ?_
    obtain ⟨bs', ht₂, hwithin⟩ := h₂
    refine (ht₂.runs_engineInsert heq had (hl.imp_right hwithin.find_none)).imp fun _ _ h₃ => h₃.2
  · exact (ht₁.runs_engineInsert heq had hl).imp fun _ _ h₃ => h₃.2

/-- Every call keeps the keys pairwise different. -/
theorem Tidy.runs_call (ht : G.Tidy f cmp h w bs) (op : TableOp δ) :
    Partial (op.call h) w fun r w' => ∃ bs', G.Tidy f cmp r.2 w' bs' := by
  have hsame : ∀ {h' : HiHandle δ} {w'} {bs' : List (List (Stored δ))},
      h'.toUserSettings = h.toUserSettings → G.Rep h' w' bs' → Within bs'.flatten bs.flatten →
      G.Tidy f cmp h' w' bs' := by
    intro h' w' bs' hset hrep hwithin
    refine ht.alike ?_ ?_ hrep (ht.distinct.within heq hwithin)
    · rw [Alike, hset]
    · rw [show h'.tableSize = h.tableSize from (congrArg UserSettings.tableSize hset :)]
      exact ht.tableSize
  cases op with
  | rehash n =>
    refine runs_bind.mpr ((ht.runs_hiRehash heq had hst n).imp fun r w' h₁ => ?_)
    exact h₁.imp fun _ h₂ => h₂.1
  | map op =>
    cases op with
    | insert k d => exact runs_bind.mpr (ht.runs_hiInsert heq had hst k d)
    | get k =>
      refine Runs.of_total ((G.get ht.covered ht.rep ht.tableSize (ht.admits had _)).imp ?_)
      rintro r w' ⟨-, hset, bs', hrep, hperm⟩
      exact ⟨bs', hsame hset hrep (.of_perm (List.Perm.flatten_congr hperm))⟩
    | remove k =>
      refine Runs.of_total ((G.remove ht.covered ht.rep ht.tableSize (ht.admits had _)).imp ?_)
      rintro r w' ⟨-, hset, bs', hrep, hperm⟩
      refine ⟨bs', hsame hset hrep ?_⟩
      cases hf : h.keyCmp.find bs.flatten k with
      | none =>
        rw [hf] at hperm
        exact .of_perm hperm
      | some x =>
        rw [hf] at hperm
        exact .of_subperm ((List.sublist_cons_self x _).subperm.trans hperm.symm.subperm)

theorem Tidy.runs_calls (ht : G.Tidy f cmp h w bs) (ops : List (TableOp δ)) :
    Partial (Prog.calls TableOp.call ops h) w fun r w' => ∃ bs', G.Tidy f cmp r.2 w' bs' := by
  have hmeets : Meets TableOp.call (Machine.any : Machine (TableOp δ) (Result δ) Unit)
      (fun _ _ _ _ => True) ops () h w := Meets.of_forall fun _ _ _ _ => trivial
  refine (Lib.runs_calls (R := fun h w _ => ∃ bs, G.Tidy f cmp h w bs) ⟨bs, ht⟩ hmeets ?_).imp ?_
  · rintro op h w a ⟨bs, ht⟩ -
    exact (ht.runs_call heq had hst op).imp fun _ _ h₁ => ⟨trivial, h₁⟩
  · rintro r w' ⟨_, -, h₁⟩
    exact h₁

/-- The handles that calls reach from a new table. -/
theorem tidy_of_reached {s : HiInitSet} {u : UserSettings} (hs : lhiSetSanityCheck s = .ok u)
    (hc : G.covers u.collEng) (hhash : u.hashFunc = f) (hcmp : u.keyCmp = cmp) (hr : Reached s h w) :
    ∃ bs, G.Tidy f cmp h w bs := by
  obtain ⟨w₀, h₀, w₁, ops, rs, hcreate, -, hrun⟩ := hr
  rcases (G.runs_hiCreate hs hc).of_run hcreate with ⟨he, -⟩ | ⟨h₁, he, hu, hm⟩
  · cases he
  cases he
  have ht : G.Tidy f cmp h₀ w₁ (List.replicate u.tableSize.toNat []) :=
    { covered := by
        rw [show h₀.collEng = u.collEng from (congrArg UserSettings.collEng hu :)]
        exact hc
      hashFunc := (congrArg UserSettings.hashFunc hu :).trans hhash
      keyCmp := (congrArg UserSettings.keyCmp hu :).trans hcmp
      tableSize := hm.tableSize
      rep := hm.rep
      distinct := by
        rw [List.flatten_replicate_nil]
        exact .nil }
  exact (ht.runs_calls heq had hst ops).of_run hrun

end Engine

/-! ## The condition -/

/-- A bucket counts as having an entry, and no list is longer than its counter tells. -/
structure CanRehash (e : CollEng) (bs : List (List (Stored δ))) : Prop where
  counted : ∃ l ∈ bs, l.length % 2 ^ 32 ≠ 0
  fits : plainList e → ∀ l ∈ bs, 2 ^ 32 ≤ l.length → l.length % 2 ^ 32 = 0

/-- The snapshot of a bucket, as far as its length goes. -/
def CountedSnap (e : CollEng) (l s : List (Stored δ)) : Prop :=
  s.length = l.length % 2 ^ 32 ∧ (plainList e → 2 ^ 32 ≤ l.length → l.length % 2 ^ 32 = 0)

/-- The snapshot of a list that is longer than its counter tells leaves its arrays. -/
theorem Stores.snapshot_fits (hs : Stores h w bs) {b : Nat} {l : List (Stored δ)} (hl : bs[b]? = some l)
    {a : BucketArray δ} :
    Partial (snapshotOf h.collEng h b a) w fun r _ => r.1 = 0 → plainList h.collEng →
      2 ^ 32 ≤ l.length → l.length % 2 ^ 32 = 0 := by
  rcases hs with ⟨he, os, hr, rfl⟩ | ⟨he, -⟩
  · rw [contents, List.getElem?_map, Option.map_eq_some_iff] at hl
    obtain ⟨m, hm, rfl⟩ := hl
    rw [List.length_map]
    rw [show snapshotOf h.collEng = lhiListBucketToArray by
      rcases he with he | he <;> simp only [snapshotOf, he]]
    refine hr.runs_lhiListBucketToArray hm (he.elim .inl fun he => .inr (.inl he))
      (fun _ _ => trivial) (fun hmod _ _ _ _ _ _ => hmod) (fun _ _ _ _ _ _ h₀ => ?_)
      fun _ hlt _ _ _ _ _ _ _ _ hge => absurd hge (Nat.not_le_of_lt hlt)
    exact absurd (show hiErrSystem = 0 from h₀) (by decide)
  · exact partial_iff.mpr fun _ _ _ _ hp => by
      rcases hp with hp | hp <;> cases he.symm.trans hp

theorem Stores.iterable_counted (hs : Stores h w bs) :
    Iterable (fun _ => True) (snapshotOf h.collEng) h w (CountedSnap h.collEng) (fun _ => False)
      bs where
  length := hs.table.length
  next := hs.getNextBucket_eq
  bad h := h.elim
  snapshot {w'} hw {b l} hl a := by
    have hzero : l.length % 2 ^ 32 = 0 → CountedSnap h.collEng l [] := fun hmod =>
      ⟨hmod.symm, fun _ _ => hmod⟩
    have hsnap := (hs.mono hw).runs_snapshot (F := fun _ => True) hl (a := a) fun _ _ => trivial
    refine (hsnap.and_returned ((hs.mono hw).snapshot_fits hl)).imp fun r w₁ h₁ => ?_
    obtain ⟨⟨rfl, hmod, -⟩ | ⟨rfl, -, m, -, hsys⟩ | ⟨h₀, -, s, hne, hn, ha, hs'⟩, hfit⟩ := h₁
    · exact .inl ⟨rfl, hzero hmod⟩
    · exact .inr (.inl ⟨rfl, hsys.not_allocsSucceed⟩)
    · exact .inr (.inr (.inl ⟨h₀, s, hne, hn, ha, hs'.length, hfit h₀⟩))

section Necessary

variable {toArray : ToArray δ} {P : List (Stored δ) → List (Stored δ) → Prop} {n : UInt32}

/-- The loop of `hi_rehash` ends well when all snapshots have been handed out. -/
theorem Iterable.runs_rehashLoop (ht : Iterable (fun _ => True) toArray h w P (fun _ => False) bs)
    (hPlen : ∀ l s, P l s → s.length < 2 ^ 64) {fuel : Nat} {i : HiIterator δ} {new : HiHandle δ}
    {done : List (Stored δ)} (hi : IterAt P bs i done) :
    Partial (rehashLoop h fuel i new) w fun r _ =>
      r.1 ≠ success ∧ (r.2.2.isSome → r.1 = hiErrNodata → ∃ done, AllOut P bs done) := by
  induction fuel generalizing i new done w with
  | zero => exact trivial
  | succ fuel ih =>
    have hlen : bs.length < 2 ^ 64 := by
      rw [ht.length]
      have := h.tableSize.toNat_lt
      omega
    rw [rehashLoop]
    refine Runs.bind (ht.runs_hiIteratorGetnext (.inl hi) hlen hPlen) ?_
    rintro ⟨ret, next, i'⟩ w₁ hw₁ (⟨x, rfl, rfl, hi'⟩ | ⟨rfl, rfl, ho, -⟩ | ⟨rfl, rfl, -⟩)
    · refine Runs.bind (Q := fun _ _ => True) partial_trivial fun r w₂ hw₂ _ => ?_
      obtain ⟨ret, new'⟩ := r
      refine runs_ite.mpr ⟨fun hret => ?_, fun _ => ih (ht.mono (hw₁.trans hw₂)) hi'⟩
      refine Runs.bind (Q := fun _ _ => True) partial_trivial fun _ w₃ _ _ => ?_
      refine Runs.bind (Q := fun _ _ => True) partial_trivial fun fini w₄ _ _ => ?_
      have hgone : ∀ {w₅},
          Partial (pure (ret, i', none) : Prog (Int × HiIterator δ × Option (HiHandle δ))) w₅
            fun r _ => r.1 ≠ success ∧
              (r.2.2.isSome → r.1 = hiErrNodata → ∃ done, AllOut P bs done) :=
        ⟨hret, fun hsome => (Bool.false_ne_true hsome).elim⟩
      refine runs_ite.mpr ⟨fun _ => ?_, fun _ => ?_⟩
      · exact runs_bind.mpr (runs_record.mpr hgone)
      · exact runs_bind.mpr (runs_pure.mpr hgone)
    · exact ⟨show hiErrNodata ≠ success by decide, fun _ _ => ⟨done, ho⟩⟩
    · exact ⟨show hiErrSystem ≠ success by decide,
        fun _ he => absurd (show hiErrSystem = hiErrNodata from he) (by decide)⟩

theorem exists_engine {e : CollEng} (he : plainEngine e) : ∃ G : Engine δ, G.covers e := by
  rcases he with he | he
  · exact ⟨listEngine δ, he⟩
  · exact ⟨rbtreeEngine δ, he⟩

/-- `hi_rehash` succeeds only when there is a pair to begin with, and every snapshot is handed out. -/
theorem Iterable.runs_hiRehash (he : plainEngine h.collEng)
    (ht : Iterable (fun _ => True) toArray h w P (fun _ => False) bs)
    (hPlen : ∀ l s, P l s → s.length < 2 ^ 64) :
    Partial (hiRehash h n) w fun r _ => r.1 = success →
      (∃ i : HiIterator δ, IterAt P bs i [] ∧ i.a.nmemb ≠ 0) ∧ ∃ done, AllOut P bs done := by
  have hsys : ∀ {w'}, Partial (pure (hiErrSystem, h) : Prog (Int × HiHandle δ)) w' fun r _ =>
      r.1 = success → (∃ i : HiIterator δ, IterAt P bs i [] ∧ i.a.nmemb ≠ 0) ∧
        ∃ done, AllOut P bs done :=
    fun he => absurd (show hiErrSystem = success from he) (by decide)
  obtain ⟨G, hc⟩ := exists_engine (δ := δ) he
  unfold hiRehash lhiCreateVanillaHdnl
  refine runs_bind.mpr (runs_bind.mpr (runs_xallocAlign (fun _ w₁ _ _ _ _ => @hsys w₁) ?_))
  intro junk w₁ hw₁ _ _
  refine Runs.bind
    (Runs.of_total (G.runs_createWith (u := { h.toUserSettings with tableSize := n }) hc)) ?_
  rintro r w₂ hw₂ (⟨rfl, -⟩ | ⟨new, rfl, -⟩)
  · exact hsys
  have ht₂ := ht.mono (hw₁.trans hw₂)
  refine Runs.bind ht₂.runs_hiIteratorCreate ?_
  rintro r w₃ hw₃ (⟨i, rfl, hi | hi, hi₀⟩ | ⟨rfl, -⟩ | ⟨rfl, -⟩)
  · refine Runs.bind ((ht₂.mono hw₃).runs_rehashLoop hPlen hi) ?_
    rintro ⟨ret, i', rebuilt⟩ w₄ hw₄ h₄
    cases rebuilt with
    | none => exact fun he => (h₄.1 he).elim
    | some new' =>
      refine Runs.bind (Q := fun _ _ => True) partial_trivial fun _ w₅ _ _ => ?_
      refine runs_ite.mpr ⟨fun _ he => (h₄.1 he).elim, fun hret => ?_⟩
      · refine Runs.bind (Q := fun _ _ => True) partial_trivial fun _ w₆ _ _ => ?_
        exact fun _ => ⟨⟨i, hi, hi₀⟩, h₄.2 rfl (not_not.mp hret)⟩
  · exact hi.elim
  · exact fun he => absurd (show hiErrNodata = success from he) (by decide)
  · exact hsys

end Necessary

/-- What a successful `hi_rehash` tells of the table. -/
theorem Stores.canRehash_of_success (hs : Stores h w bs) {n : UInt32} :
    Partial (hiRehash h n) w fun r _ => r.1 = success → CanRehash h.collEng bs := by
  have hlen : ∀ l s : List (Stored δ), CountedSnap h.collEng l s → s.length < 2 ^ 64 := by
    intro l s hsnap
    rw [hsnap.1]
    exact (Nat.mod_lt _ (by decide)).trans (by decide)
  refine (hs.iterable_counted.runs_hiRehash hs.engine hlen).imp fun r _ h₁ hret => ?_
  obtain ⟨⟨i, ⟨-, ss, l, s, hss, -, -, hn⟩, hne⟩, done, ss', hss', -⟩ := h₁ hret
  constructor
  · obtain ⟨m, hm, hsnap⟩ := forall₂_mem hss.flip (List.mem_append_right ss List.mem_cons_self)
    refine ⟨m, List.mem_of_mem_take hm, ?_⟩
    rw [← hsnap.1, List.length_append, ← hn]
    omega
  · intro he m hm
    obtain ⟨s', -, hsnap⟩ := forall₂_mem hss' hm
    exact hsnap.2 he

/-! ## Success -/

/-- A table whose buckets do not all count as empty has a pair to hand out. -/
theorem not_allOut (hcount : ∃ l ∈ bs, l.length % 2 ^ 32 ≠ 0) {cmp : KeyCmp} {K : Key → Prop} :
    ¬ AllOut (SnapOf cmp K) bs [] := by
  rintro ⟨ss, hss, hout⟩
  obtain ⟨l, hl, hne⟩ := hcount
  obtain ⟨s, hs, hsnap⟩ := forall₂_mem hss hl
  have hlen := length_handedOut ss
  rw [← hout, List.length_nil, eq_comm, List.length_eq_zero_iff] at hlen
  have hnil : s = [] := List.flatten_eq_nil_iff.mp hlen s hs
  rw [← hsnap.length, hnil] at hne
  exact hne rfl

namespace Engine

variable {G : Engine δ} {f : HashFunc} {cmp : KeyCmp}

/-- Different keys do not clash. -/
theorem Tidy.not_clash (ht : G.Tidy f cmp h w bs) (heq : Equivalence cmp.same) : ¬ G.Clash h bs := by
  rintro ⟨i, done, x, hi, hf⟩
  have hwithin : Within (done ++ [x]) bs.flatten := .of_subperm (hi.subperm fun _ _ hs => hs.subperm)
  have hd := ht.distinct.within heq hwithin
  refine hf (KeyCmp.find_eq_none.mpr fun y hy hs => ?_)
  rw [ht.keyCmp] at hs
  exact (List.pairwise_append.mp hd).2.2 y hy x List.mem_cons_self (heq.symm hs)

/-- With an entry to begin with, a rehash that comes to its end has succeeded. -/
theorem Tidy.runs_hiRehash_success {F : Fault → Prop} (ht : G.Tidy f cmp h w bs)
    (heq : Equivalence cmp.same) (had : G.Admits f cmp fun _ => True)
    (hit : Iterable F G.toArray h w (G.Snap h bs) (fun _ => False) bs)
    (hcount : ∃ l ∈ bs, l.length % 2 ^ 32 ≠ 0) (hw : w.AllocsSucceed) {n : UInt32} (hn : n ≠ 0) :
    Runs F (hiRehash h n) w fun r w' => r.1 = success ∧ r.2.tableSize = n ∧
      ∃ bs', G.Tidy f cmp r.2 w' bs' ∧ Within bs'.flatten bs.flatten := by
  refine (G.runs_hiRehash ht.covered ht.rep (.inl hn) (fun _ _ => ht.admits had _) hit).imp ?_
  rintro r w' (⟨hret, -, hset, hmoved⟩ | ⟨-, -, hfail | hout | hclash⟩)
  · obtain ⟨bs', ss, hrep, hss, hperm, -⟩ := hmoved
    have hsize : r.2.tableSize = n := (congrArg UserSettings.tableSize hset :)
    have hwithin : Within bs'.flatten bs.flatten :=
      hperm.subperm.trans (Within.of_subperm (flatten_subperm hss fun _ _ hs => hs.subperm))
    refine ⟨hret, hsize, bs', ht.alike ?_ (hsize ▸ hn) hrep (ht.distinct.within heq hwithin), hwithin⟩
    rw [Alike, hset]
  · exact (hfail hw).elim
  · exact (not_allOut hcount hout).elim
  · exact (ht.not_clash heq hclash).elim

end Engine

/-- The snapshots of trees are taken whatever their counters tell. -/
theorem iterable_rbtree (hc : h.collEng = .rbtree) (hr : TreeRep h w bs) :
    Iterable (fun _ => False) (rbtreeEngine δ).toArray h w ((rbtreeEngine δ).Snap h bs)
      (fun _ => False) bs := by
  refine (rbtreeEngine δ).iterable_of_snapshots hc hr (fun _ _ _ hs => hs) ?_
  obtain ⟨ts, hrep, hsorted, rfl⟩ := hr
  intro w' hw b l a hl
  rw [treeContents, List.getElem?_map, Option.map_eq_some_iff] at hl
  obtain ⟨t, ht, rfl⟩ := hl
  exact rbtree_snapshot (hrep.mono hw) hsorted ht

/-- No list is longer than its counter tells. -/
abbrev ListsFit (e : CollEng) (bs : List (List (Stored δ))) : Prop :=
  plainList e → ∀ l ∈ bs, 2 ^ 32 ≤ l.length → l.length % 2 ^ 32 = 0

/-- The engine of a table that calls have reached, and when its buckets can be copied. -/
theorem Reached.tidy {s : HiInitSet} {f : HashFunc} {cmp : KeyCmp} (hs : PlainSettings s f cmp)
    (hk : KeyContract f cmp s.collEng) (hr : Reached s h w) :
    ∃ (G : Engine δ) (bs : _), G.Tidy f cmp h w bs ∧ G.Admits f cmp (fun _ => True) ∧
      (∀ {h w bs}, G.covers h.collEng → G.Rep h w bs → Stores h w bs) ∧
      (ListsFit h.collEng bs →
        Iterable (fun _ => False) G.toArray h w (G.Snap h bs) (fun _ => False) bs) := by
  obtain ⟨u, hcheck, he, heng, rfl, rfl⟩ := hs.check
  have hresp : u.hashFunc.Respects u.keyCmp fun _ => True := fun k k' _ _ => hk.hash k k'
  rcases he with he | he
  · have hst : ∀ {h : HiHandle δ} {w bs}, plainList h.collEng →
        (∃ os, ListRep h w os ∧ contents os = bs) → Stores h w bs := fun hc hrep => .inl ⟨hc, hrep⟩
    obtain ⟨bs, ht⟩ := Engine.tidy_of_reached (G := listEngine δ) hk.equivalence hresp
      hst hcheck he rfl rfl hr
    refine ⟨_, bs, ht, hresp, hst, fun hfit => ?_⟩
    exact (listEngine δ).iterable ht.covered ht.rep (fun _ _ _ hs => hs)
      fun l hl hge hne => hne (hfit ht.covered l hl hge)
  · have had : OrderedKeys u.hashFunc u.keyCmp fun _ => True := ⟨hresp, hk.order (heng ▸ he)⟩
    have hst : ∀ {h : HiHandle δ} {w bs}, h.collEng = .rbtree → TreeRep h w bs → Stores h w bs := by
      rintro h w bs hc ⟨ts, hrep, -, rfl⟩
      exact .inr ⟨hc, ts, hrep, rfl⟩
    obtain ⟨bs, ht⟩ := Engine.tidy_of_reached (G := rbtreeEngine δ) hk.equivalence had
      hst hcheck he rfl rfl hr
    exact ⟨_, bs, ht, had, hst, fun _ => iterable_rbtree ht.covered ht.rep⟩

/-- When no allocation fails, `hi_rehash` succeeds exactly on a table one of whose buckets counts as
having an entry and whose lists are not longer than their counters tell. -/
theorem rehash_succeeds_iff {s : HiInitSet} {f : HashFunc} {cmp : KeyCmp} (hs : PlainSettings s f cmp)
    (hk : KeyContract f cmp s.collEng) (hr : Reached s h w) (hw : w.AllocsSucceed) {n : UInt32}
    (hn : n ≠ 0) :
    ∃ bs, Stores h w bs ∧
      (Total (hiRehash h n) w (fun r _ => r.1 = success ∧ r.2.tableSize = n) ↔
        CanRehash h.collEng bs) := by
  obtain ⟨G, bs, ht, had, hst, hit⟩ := hr.tidy hs hk
  have hstores := hst ht.covered ht.rep
  refine ⟨bs, hstores, fun htotal => ?_, fun hcan => ?_⟩
  · obtain ⟨r, w', hrun, hret, -⟩ := total_iff.mp htotal
    exact hstores.canRehash_of_success.of_run hrun hret
  · refine (ht.runs_hiRehash_success hk.equivalence had (hit hcan.fits) hcan.counted hw hn).imp ?_
    exact fun _ _ h₁ => ⟨h₁.1, h₁.2.1⟩

/-- A table whose `no_objects` is not zero has a bucket that does not count as empty. -/
theorem Stores.exists_counted (hs : Stores h w bs) (hn : h.noObjects ≠ 0) :
    ∃ l ∈ bs, l.length % 2 ^ 32 ≠ 0 := by
  by_contra hnone
  have hzero : ∀ l ∈ bs, l.length % 2 ^ 32 = 0 := fun l hl =>
    not_not.mp fun hne => hnone ⟨l, hl, hne⟩
  have hsum : bs.flatten.length % 2 ^ 32 = 0 := by
    rw [List.length_flatten]
    refine Nat.mod_eq_zero_of_dvd (List.dvd_sum fun n hl => ?_)
    obtain ⟨l, hmem, rfl⟩ := List.mem_map.mp hl
    exact Nat.dvd_of_mod_eq_zero (hzero l hmem)
  refine hn (UInt32.toNat_inj.mp ?_)
  rw [hs.count, UInt32.toNat_ofNat', hsum]
  rfl

/-- A table of one bucket whose keys are compared byte by byte. -/
def byteList : HiInitSet := { oneList with keyCmp := some cmpBytes }

theorem byteList_settings : PlainSettings byteList ⟨0, lhiHashDumb1⟩ cmpBytes :=
  ⟨.inl (.inl rfl), by decide, rfl, rfl⟩

theorem byteList_contract : KeyContract ⟨0, lhiHashDumb1⟩ cmpBytes byteList.collEng :=
  ⟨equivalence_cmpBytes, fun _ _ _ => rfl,
    fun he => absurd (show CollEng.list = .rbtree from he) (by decide)⟩

/-- A table with one entry gets a second bucket. -/
theorem rehash_succeeds_iff_one :
    ∃ (h : HiHandle String) (w : World), Reached byteList h w ∧ h.noObjects = 1 ∧
      Total (hiRehash h 2) w fun r _ => r.1 = success ∧ r.2.tableSize = 2 := by
  obtain ⟨h, w₁, rs, h', w₂, hcreate, hcalls, hcount, hreq, hsucc⟩ :
      ∃ (h : HiHandle String) (w₁ : World) (rs : _) (h' : HiHandle String) (w₂ : World),
        (hiCreate byteList).run (World.start fun _ _ => 0) = .ok (.ok h, w₁) ∧
        (Prog.calls TableOp.call [.map (.insert ⟨[1, 0], by decide⟩ "one")] h).run w₁ =
          .ok ((rs, h'), w₂) ∧ h'.noObjects = 1 ∧ w₂.requests < 2 ^ 32 ∧ w₂.AllocsSucceed := by
    refine ⟨_, _, _, _, _, rfl, rfl, rfl, by decide, fun n => ⟨_, rfl⟩⟩
  have hreach : Reached byteList h' w₂ := ⟨World.start fun _ _ => 0, h, w₁,
    [.map (.insert ⟨[1, 0], by decide⟩ "one")], rs, hcreate, Meets.of_forall fun _ _ _ _ => trivial,
    hcalls⟩
  obtain ⟨bs, hst, hiff⟩ := rehash_succeeds_iff byteList_settings byteList_contract hreach hsucc
    (n := 2) (by decide)
  refine ⟨h', w₂, hreach, hcount, hiff.mpr ⟨hst.exists_counted ?_, fun _ l hl hge => ?_⟩⟩
  · rw [hcount]
    decide
  · exact absurd ((hst.length_le hl).trans_lt hreq) (Nat.not_lt_of_le hge)

/-- An empty table cannot be rehashed. -/
theorem empty_table_not_rehashed :
    ∃ (h : HiHandle String) (w : World), Reached byteList h w ∧ w.AllocsSucceed ∧
      Total (hiRehash h 2) w fun r _ => r.1 = hiErrNodata ∧ r.2.tableSize = 1 := by
  obtain ⟨h, w₁, hcreate, hsucc, hrehash⟩ : ∃ (h : HiHandle String) (w₁ : World),
      (hiCreate byteList).run (World.start fun _ _ => 0) = .ok (.ok h, w₁) ∧ w₁.AllocsSucceed ∧
      Total (hiRehash h 2) w₁ fun r _ => r.1 = hiErrNodata ∧ r.2.tableSize = 1 :=
    ⟨_, _, rfl, fun n => ⟨_, rfl⟩, total_iff.mpr ⟨_, _, rfl, rfl, rfl⟩⟩
  exact ⟨h, w₁, ⟨World.start fun _ _ => 0, h, w₁, [], [], hcreate, trivial, rfl⟩, hsucc, hrehash⟩

end Hashish
