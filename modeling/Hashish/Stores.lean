import Hashish.ListMap
import Hashish.RbtreeMap
import Hashish.Upkeep

/-!
# Tables that link their entries

`Stores h w bs` says that a table of a list engine without a second hash, or of the tree
engine, is linked in memory, and which pairs its buckets hold. It asks nothing of the
compare function.

* `Stores.iterable`: the snapshots of such a table.
* `storesUpkeep`: every call keeps the table linked.
* `Reached.stores`: so every table that a session reaches is linked.
-/

namespace Hashish

open Hashish.Lib

variable {δ : Type} {F : Fault → Prop} {w w' : World} {h : HiHandle δ} {bs : List (List (Stored δ))}

/-- The engines that link their entries and compare keys only. -/
def plainEngine (e : CollEng) : Prop := plainList e ∨ e = .rbtree

/-- The table is linked in memory, and its buckets hold the pairs `bs`. -/
def Stores (h : HiHandle δ) (w : World) (bs : List (List (Stored δ))) : Prop :=
  (plainList h.collEng ∧ ∃ os, ListRep h w os ∧ contents os = bs) ∨
  (h.collEng = .rbtree ∧ ∃ ts, RbRep h w ts ∧ treeContents ts = bs)

/-- The function that takes a snapshot. -/
def snapshotOf (e : CollEng) : ToArray δ :=
  match e with
  | .rbtree => lhiRbtreeBucketToArray
  | _ => lhiListBucketToArray

namespace Stores

theorem engine (hs : Stores h w bs) : plainEngine h.collEng := by
  rcases hs with ⟨he, -⟩ | ⟨he, -⟩
  · exact .inl he
  · exact .inr he

theorem table (hs : Stores h w bs) : Table h.toUserSettings bs := by
  rcases hs with ⟨-, os, hr, rfl⟩ | ⟨-, ts, hr, rfl⟩
  · exact hr.table
  · exact hr.table

theorem count (hs : Stores h w bs) : h.noObjects = UInt32.ofNat bs.flatten.length := by
  rcases hs with ⟨-, os, hr, rfl⟩ | ⟨-, ts, hr, rfl⟩
  · rw [hr.count, contents, ← List.map_flatten, List.length_map]
  · rw [hr.count, flatten_treeContents, List.length_map]

/-- The counters of the buckets. -/
theorem sizes (hs : Stores h w bs) :
    h.bucketSize.cells = bs.map fun l => UInt32.ofNat l.length := by
  rcases hs with ⟨-, os, hr, rfl⟩ | ⟨-, ts, hr, rfl⟩
  · rw [hr.sizes, contents, List.map_map]
    simp [Function.comp_def]
  · rw [hr.sizes, treeContents, List.map_map]
    simp [Function.comp_def]

/-- Every entry takes a request. -/
theorem length_le (hs : Stores h w bs) {l : List (Stored δ)} (hl : l ∈ bs) :
    l.length ≤ w.requests := by
  rcases hs with ⟨-, os, hr, rfl⟩ | ⟨-, ts, hr, rfl⟩
  · obtain ⟨m, hm, rfl⟩ := List.mem_map.mp hl
    obtain ⟨b, hb⟩ := List.getElem?_of_mem hm
    simpa using hr.length_le hb
  · obtain ⟨t, ht, rfl⟩ := List.mem_map.mp hl
    obtain ⟨b, hb⟩ := List.getElem?_of_mem ht
    simpa using hr.length_le hb

theorem mono (hs : Stores h w bs) (hw : w ≤ w') : Stores h w' bs := by
  rcases hs with ⟨he, os, hr, rfl⟩ | ⟨he, ts, hr, rfl⟩
  · exact .inl ⟨he, os, hr.mono hw, rfl⟩
  · exact .inr ⟨he, ts, hr.mono hw, rfl⟩

theorem relabel (hs : Stores h w bs) (a : Int) (p : Ptr) :
    Stores { h with rehashAuto := a, self := p } w bs := by
  rcases hs with ⟨he, os, hr, rfl⟩ | ⟨he, ts, hr, rfl⟩
  · exact .inl ⟨he, os, { hr with table := ⟨hr.table.length, hr.table.placed⟩ }, rfl⟩
  · exact .inr ⟨he, ts, { hr with table := ⟨hr.table.length, hr.table.placed⟩ }, rfl⟩

/-- The snapshot of a bucket takes three requests, unless the counter of the bucket is 0. -/
theorem runs_snapshot (hs : Stores h w bs) {b : Nat} {l : List (Stored δ)} (hb : bs[b]? = some l)
    {a : BucketArray δ} (hF : 2 ^ 32 ≤ l.length → l.length % 2 ^ 32 ≠ 0 → F .badAddress) :
    Runs F (snapshotOf h.collEng h b a) w fun r w' =>
      (r = (hiErrNodata, a) ∧ l.length % 2 ^ 32 = 0 ∧ w'.requests = w.requests) ∨
      (r = (hiErrSystem, a) ∧ l.length % 2 ^ 32 ≠ 0 ∧ ∃ m < 3, w.Refused m w') ∨
      (r.1 = 0 ∧ w.Served 3 w' ∧ ∃ s, s ≠ [] ∧ r.2.nmemb = s.length ∧ r.2.Shows (s.map some) ∧
        SnapOf h.keyCmp (fun _ => False) l s) := by
  rcases hs with ⟨he, os, hr, rfl⟩ | ⟨he, ts, hr, rfl⟩
  · rw [contents, List.getElem?_map, Option.map_eq_some_iff] at hb
    obtain ⟨m, hm, rfl⟩ := hb
    rw [List.length_map] at hF ⊢
    rw [show snapshotOf h.collEng = lhiListBucketToArray by
      rcases he with he | he <;> simp only [snapshotOf, he]]
    refine hr.runs_lhiListBucketToArray hm (he.elim .inl fun he => .inr (.inl he)) hF
      (fun hmod w' _ hw => .inl ⟨rfl, hmod, hw⟩)
      (fun n w' hmod _ hn hs => .inr (.inl ⟨rfl, hmod, n, hn, hs⟩)) ?_
    intro hne hlt a' w' _ hs hn ha
    refine .inr (.inr ⟨rfl, hs, m.map Obj.toStored, by simpa using hne, by simpa using hn, ha, ?_⟩)
    refine ⟨?_, .refl _, nofun⟩
    rw [List.length_map, Nat.mod_eq_of_lt hlt]
  · rw [treeContents, List.getElem?_map, Option.map_eq_some_iff] at hb
    obtain ⟨t, ht, rfl⟩ := hb
    rw [List.length_map] at hF ⊢
    rw [show snapshotOf h.collEng = lhiRbtreeBucketToArray by simp only [snapshotOf, he]]
    have hperm := RbRep.preStored_perm t
    refine hr.runs_lhiRbtreeBucketToArray ht (fun hmod w' _ hw => .inl ⟨rfl, hmod, hw⟩)
      (fun n w' hmod _ hn hs => .inr (.inl ⟨rfl, hmod, n, hn, hs⟩)) ?_
    intro s a' w' _ hsv hne hlen hsub hfull hn ha
    refine .inr (.inr ⟨rfl, hsv, s, hne, hn, ha, ⟨?_, hsub.trans hperm.subperm, nofun⟩⟩)
    rw [List.length_map, hlen]

theorem getNextBucket_eq (hs : Stores h w bs) (err : Int) (i : HiIterator δ) :
    getNextBucket err h i = getNext (snapshotOf h.collEng) h i := by
  rcases hs with ⟨he | he, -⟩ | ⟨he, -⟩ <;>
  · simp only [getNextBucket, snapshotOf, he]
    rfl

/-- The snapshots of a linked table. -/
theorem iterable (hs : Stores h w bs)
    (hF : ∀ l ∈ bs, 2 ^ 32 ≤ l.length → l.length % 2 ^ 32 ≠ 0 → F .badAddress) :
    Iterable F (snapshotOf h.collEng) h w (SnapOf h.keyCmp fun _ => False) (fun _ => False) bs where
  length := hs.table.length
  next := hs.getNextBucket_eq
  bad h := h.elim
  snapshot {w'} hw {b l} hl a := by
    refine ((hs.mono hw).runs_snapshot hl (hF l (List.mem_of_getElem? hl))).imp fun r w₁ h₁ => ?_
    rcases h₁ with ⟨rfl, hmod, -⟩ | ⟨rfl, -, n, -, hsys⟩ | ⟨h₀, -, hs'⟩
    · exact .inl ⟨rfl, .nil hmod⟩
    · exact .inr (.inl ⟨rfl, hsys.not_allocsSucceed⟩)
    · exact .inr (.inr (.inl ⟨h₀, hs'⟩))

/-! ## The operations -/

section Operations

variable {k : Key} (hs : Stores h w bs) (hu : h.tableSize ≠ 0)
include hs hu

/-- Retrieval reorders the bucket of the key at most. -/
theorem runs_hiGet : Total (hiGet h k.bytes k.keylen) w fun r w' =>
    r.2.toUserSettings = h.toUserSettings ∧
      ∃ bs', Stores r.2 w' bs' ∧ List.Forall₂ List.Perm bs' bs := by
  have hsame : ∀ bs : List (List (Stored δ)), List.Forall₂ List.Perm bs bs :=
    fun bs => List.forall₂_same.mpr fun _ _ => .refl _
  unfold hiGet
  rcases hs with ⟨he, os, hr, rfl⟩ | ⟨he, ts, hr, rfl⟩
  · obtain ⟨l, hb⟩ := hr.exists_bucket hu k
    have hlog := w.le_log (.lock h.mutexLock)
    unfold lhiGetList
    rcases he with he | he
    · simp only [he, runs_bind, runs_bucketOf hu, runs_mutexLock]
      refine (hr.mono hlog).runs_getHit hb keyHit_eq (fun _ w' hw _ _ => ?_)
        fun _ _ _ w' _ _ _ hw _ _ => ?_
      · exact ⟨rfl, _, .inl ⟨.inl he, os, hr.mono (hlog.trans hw), rfl⟩, hsame _⟩
      · exact ⟨rfl, _, .inl ⟨.inl he, os, hr.mono (hlog.trans hw), rfl⟩, hsame _⟩
    · simp only [he, runs_bind, runs_bucketOf hu]
      refine hr.runs_getHitMtf hb keyHit_eq (fun _ w' hw _ _ => ?_) ?_
      · exact ⟨rfl, _, .inl ⟨.inr he, os, hr.mono hw, rfl⟩, hsame _⟩
      · rintro l₁ x l₂ h' w' rfl - - hr' hu' - - -
        have he' : h'.collEng = .listMtf := (congrArg UserSettings.collEng hu' :).trans he
        refine ⟨hu', _, .inl ⟨.inr he', _, hr', rfl⟩, ?_⟩
        rw [contents_set]
        exact forall₂_perm_set (contents_getElem hb) (List.perm_middle.symm.map _)
  · obtain ⟨t, hb⟩ := hr.exists_tree hu k
    simp only [he, runs_bind]
    refine hr.runs_lhiGetRbtree hu hb (fun _ w' _ _ hw _ => ?_)
      fun _ _ _ _ _ w' _ _ _ hw _ => ?_
    · exact ⟨rfl, _, .inr ⟨he, ts, hr.mono hw, rfl⟩, hsame _⟩
    · exact ⟨rfl, _, .inr ⟨he, ts, hr.mono hw, rfl⟩, hsame _⟩

theorem runs_hiRemove : Total (hiRemove h k.bytes k.keylen) w fun r w' =>
    r.2.toUserSettings = h.toUserSettings ∧ ∃ bs', Stores r.2 w' bs' := by
  unfold hiRemove
  rcases hs with ⟨he, os, hr, rfl⟩ | ⟨he, ts, hr, rfl⟩
  · obtain ⟨l, hb⟩ := hr.exists_bucket hu k
    have hlog := w.le_log (.lock h.mutexLock)
    have hremove : Total (h.removeHit (h.toUserSettings.bucket k) (h.keyHit k.bytes))
        (w.log (.lock h.mutexLock)) fun r w' =>
        r.2.toUserSettings = h.toUserSettings ∧ ∃ bs', Stores r.2 w' bs' := by
      refine (hr.mono hlog).runs_removeHit hb keyHit_eq (fun _ w' hw _ _ => ?_) ?_
      · exact ⟨rfl, _, .inl ⟨he, os, hr.mono (hlog.trans hw), rfl⟩⟩
      · intro _ _ _ h' w' _ _ _ hr' hu' _ _ _
        have he' : h'.collEng = h.collEng := congrArg UserSettings.collEng hu'
        exact ⟨hu', _, .inl ⟨he' ▸ he, _, hr', rfl⟩⟩
    unfold lhiRemoveList
    rcases he with he | he <;>
    · simp only [he, runs_bind, runs_mutexLock, runs_bucketOf hu]
      exact hremove
  · obtain ⟨t, hb⟩ := hr.exists_tree hu k
    simp only [he]
    refine hr.runs_lhiRemoveRbtree hu hb (fun _ w' _ _ hw _ => ?_) ?_
    · exact ⟨rfl, _, .inr ⟨he, ts, hr.mono hw, rfl⟩⟩
    · intro _ _ _ _ _ _ h' w' _ _ _ _ hr' hu' _ _
      have he' : h'.collEng = h.collEng := congrArg UserSettings.collEng hu'
      exact ⟨hu', _, .inr ⟨he'.trans he, _, hr', rfl⟩⟩

theorem runs_engineInsert {d : δ} : Total (engineInsert h k.bytes k.keylen d) w fun r w' =>
    r.2.toUserSettings = h.toUserSettings ∧ ∃ bs', Stores r.2 w' bs' := by
  unfold engineInsert
  rcases hs with ⟨he, os, hr, rfl⟩ | ⟨he, ts, hr, rfl⟩
  · obtain ⟨l, hb⟩ := hr.exists_bucket hu k
    have hinsert : Total (lhiInsertList h k.bytes k.keylen d) w fun r w' =>
        r.2.toUserSettings = h.toUserSettings ∧ ∃ bs', Stores r.2 w' bs' := by
      refine hr.runs_lhiInsertList hu hb (fun _ _ w' _ hw _ _ => ?_) ?_
      · exact ⟨rfl, _, .inl ⟨he, os, hr.mono hw, rfl⟩⟩
      · intro _ h' w' _ _ _ _ _ hr' hu' _ _ _
        have he' : h'.collEng = h.collEng := congrArg UserSettings.collEng hu'
        exact ⟨hu', _, .inl ⟨he' ▸ he, _, hr', rfl⟩⟩
    rcases he with he | he <;>
    · simp only [he]
      exact hinsert
  · obtain ⟨t, hb⟩ := hr.exists_tree hu k
    simp only [he]
    refine hr.runs_lhiInsertRbtree hu hb (fun _ _ _ _ _ w' _ _ _ hw _ => ?_)
      (fun _ _ w' _ _ hw _ _ => ?_) ?_
    · exact ⟨rfl, _, .inr ⟨he, ts, hr.mono hw, rfl⟩⟩
    · exact ⟨rfl, _, .inr ⟨he, ts, hr.mono hw, rfl⟩⟩
    · intro _ _ _ h' w' _ _ _ _ _ hr' hu' _ _ _
      have he' : h'.collEng = h.collEng := congrArg UserSettings.collEng hu'
      exact ⟨hu', _, .inr ⟨he'.trans he, _, hr', rfl⟩⟩

end Operations

/-- A new table holds nothing. -/
theorem runs_createEng {u : UserSettings} {p : Ptr} {sizes : Fresh} {lock : Ptr}
    (he : plainEngine u.collEng) :
    Total (createEng (HiHandle.ofSettings u p sizes lock : HiHandle δ)) w fun r w' =>
      (r = .error hiErrSystem ∧ ¬ w.AllocsSucceed) ∨
      ∃ h, r = .ok h ∧ h.toUserSettings = u ∧
        Stores h w' (List.replicate u.tableSize.toNat []) := by
  rcases he with he | he
  · refine ((listEngine δ).create he).imp ?_
    rintro r w' (h' | ⟨h, rfl, hu, hr⟩)
    · exact .inl h'
    · refine .inr ⟨h, rfl, hu, .inl ⟨?_, hr⟩⟩
      rw [show h.collEng = u.collEng from congrArg UserSettings.collEng hu]
      exact he
  · refine ((rbtreeEngine δ).create he).imp ?_
    rintro r w' (h' | ⟨h, rfl, hu, ts, hr, -, hts⟩)
    · exact .inl h'
    · exact .inr ⟨h, rfl, hu, .inr ⟨(congrArg UserSettings.collEng hu :).trans he, ts, hr, hts⟩⟩

end Stores

/-- Every call keeps the table linked. -/
theorem storesUpkeep :
    Upkeep (fun u => plainEngine u.collEng) (fun (h : HiHandle δ) w => ∃ bs, Stores h w bs)
      fun _ _ _ _ => True where
  engines {u} he := by
    rcases he with (he | he) | he <;> rw [he] <;> decide
  resize _ _ he := he
  mono := by
    rintro h w w' ⟨bs, hs⟩ hw
    exact ⟨bs, hs.mono hw⟩
  relabel := by
    rintro h w a p ⟨bs, hs⟩
    exact ⟨bs, hs.relabel a p⟩
  get := by
    rintro h w k - hu ⟨bs, hs⟩
    refine Runs.of_total ((hs.runs_hiGet hu).imp fun r w' h' => ?_)
    exact ⟨h'.1, h'.2.imp fun _ h' => h'.1⟩
  remove := by
    rintro h w k - hu ⟨bs, hs⟩
    exact Runs.of_total (hs.runs_hiRemove hu)
  insert := by
    rintro h w k d - hu ⟨bs, hs⟩
    exact Runs.of_total ((hs.runs_engineInsert hu).imp fun r w' h' => ⟨h'.1, fun _ => h'.2⟩)
  create he := by
    refine Runs.of_total ((Stores.runs_createEng he).imp ?_)
    rintro r w' (⟨rfl, -⟩ | ⟨h, rfl, hu, hs⟩)
    · exact .inl ⟨_, rfl⟩
    · exact .inr ⟨h, rfl, hu, _, hs⟩
  snapshots := by
    rintro h w - ⟨bs, hs⟩
    refine ⟨_, _, _, _, bs, hs.iterable fun _ _ _ _ => trivial, fun l s h' => ?_⟩
    rw [h'.length]
    omega

/-! ## Sessions -/

/-- Without automatic rehashing the settings stay as they are. -/
theorem Stores.runs_mapOp (hs : Stores h w bs) (hu : h.tableSize ≠ 0) (hauto : h.rehashAuto = 0)
    (op : MapOp δ) : Partial (op.call h) w fun r w' =>
      r.2.toUserSettings = h.toUserSettings ∧ ∃ bs', Stores r.2 w' bs' := by
  cases op with
  | insert k d =>
    refine runs_bind.mpr ((storesUpkeep.runs_hiInsertWith (d := d) hs.engine hu ⟨bs, hs⟩ hauto).imp ?_)
    exact fun r w' h' => ⟨h'.1, h'.2 (.inr fun _ _ _ => trivial)⟩
  | get k => exact storesUpkeep.get k hs.engine hu ⟨bs, hs⟩
  | remove k => exact storesUpkeep.remove k hs.engine hu ⟨bs, hs⟩

theorem Stores.runs_mapOps (hs : Stores h w bs) (hu : h.tableSize ≠ 0) (hauto : h.rehashAuto = 0)
    (ops : List (MapOp δ)) : Partial (Prog.calls MapOp.call ops h) w fun r w' =>
      r.2.toUserSettings = h.toUserSettings ∧ ∃ bs', Stores r.2 w' bs' := by
  have hmeets : Meets MapOp.call Machine.any (fun _ _ _ _ => True) ops () h w :=
    Meets.of_forall fun _ _ _ _ => trivial
  refine (runs_calls (R := fun h' w' _ => h'.toUserSettings = h.toUserSettings ∧
    ∃ bs', Stores h' w' bs') ⟨rfl, bs, hs⟩ hmeets fun op h₁ w₁ _ hR _ => ?_).imp ?_
  · obtain ⟨hset, bs₁, hs₁⟩ := hR
    have hu₁ : h₁.tableSize ≠ 0 := by
      rw [show h₁.tableSize = h.tableSize from congrArg UserSettings.tableSize hset]
      exact hu
    have hauto₁ : h₁.rehashAuto = 0 := (congrArg UserSettings.rehashAuto hset :).trans hauto
    exact (hs₁.runs_mapOp hu₁ hauto₁ op).imp fun r w₂ h₂ => ⟨trivial, h₂.1.trans hset, h₂.2⟩
  · rintro r w' ⟨_, -, h'⟩
    exact h'

/-- A session with the settings `s` has reached the handle. -/
def Reached (s : HiInitSet) (h : HiHandle δ) (w : World) : Prop := ReachedBy (fun _ _ _ => True) s h w

/-- The handle at the end of a session. -/
theorem Reached.of_session {s : HiInitSet} {w₀ : World} {ops : List (TableOp δ)}
    {rs : List (Result δ)} (hrun : (tableSession s ops).run w₀ = .ok (.ok (rs, h), w)) :
    Reached s h w := by
  have hall : Partial (tableSession s ops) w₀ fun r w => ∀ rs h, r = .ok (rs, h) → Reached s h w := by
    refine Runs.bind (partial_iff.mpr fun _ _ hcreate => hcreate) fun r w₁ _ hcreate => ?_
    cases r with
    | error e => exact fun _ _ he => nomatch he
    | ok h₀ =>
      refine Runs.bind (partial_iff.mpr fun _ _ hcalls => hcalls) fun r w₂ _ hcalls => ?_
      rintro rs h ⟨⟩
      exact ⟨w₀, h₀, w₁, ops, rs, hcreate, Meets.of_forall fun _ _ _ _ => trivial, hcalls⟩
  exact hall.of_run hrun rs h rfl

/-- Where failed insertions keep the invariant, it holds of every handle that is reached. -/
theorem Reached.upkeep {e : UserSettings → Prop} {Inv : HiHandle δ → World → Prop}
    (K : Upkeep e Inv fun _ _ _ _ => True) {s : HiInitSet} {u : UserSettings}
    (hs : lhiSetSanityCheck s = .ok u) (he : e u) (hr : Reached s h w) :
    Alike u h.toUserSettings ∧ h.tableSize ≠ 0 ∧ Inv h w := by
  refine K.reached hs he (fun h w op r w' _ _ _ => ?_) hr
  cases op with
  | rehash n => trivial
  | map op =>
    cases op with
    | insert k d => exact .inr (.inr fun _ _ _ => trivial)
    | get k => trivial
    | remove k => trivial

/-- A table that a session reaches is linked, and its settings are those of the session. -/
theorem Reached.stores {s : HiInitSet} {u : UserSettings} (hs : lhiSetSanityCheck s = .ok u)
    (he : plainEngine u.collEng) (hr : Reached s h w) :
    Alike u h.toUserSettings ∧ h.tableSize ≠ 0 ∧ ∃ bs, Stores h w bs :=
  hr.upkeep storesUpkeep hs he

end Hashish
