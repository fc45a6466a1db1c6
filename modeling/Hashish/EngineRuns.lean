import Hashish.Rehash

/-!
# Runs of an engine refine the abstract map

* `Engine.runs_hiInsert`: `hi_insert`, with the rehashing it may start.
* `Engine.runs_mapOps`: every run of `hi_insert`, `hi_get` and `hi_remove` on a handle of
  an engine is a run of the abstract map, as long as the engine can compare the keys and
  rehashing does not meet the limits of the counters.
* `Engine.runs_hiCreate`: `hi_create` gives the empty map.
-/

namespace Hashish

open Hashish.Lib

variable {δ : Type} {bs : List (List (Stored δ))} {h : HiHandle δ} {w : World} {F : Fault → Prop}

/-- The next insertion of an absent key rehashes first. -/
def HiHandle.Due (h : HiHandle δ) : Prop :=
  h.rehashAuto ≠ 0 ∧ h.rehashThreshold.below (floatOfUInt32 (h.noObjects / h.tableSize)) = true

theorem runs_doRehash {rehash : HiHandle δ → UInt32 → Prog (Int × HiHandle δ)}
    {Q : HiHandle δ → World → Prop} (hu : h.tableSize ≠ 0)
    (hdue : h.Due → Runs F (rehash h (h.tableSize * 2)) w fun r w' => Q r.2 w')
    (hnot : ¬ h.Due → Q h w) : Runs F (doRehash rehash h) w Q := by
  unfold doRehash
  by_cases ha : h.rehashAuto = 0
  · rw [if_pos ha]
    exact hnot fun hd => hd.1 ha
  · rw [if_neg ha, udiv, if_neg hu, runs_bind, runs_pure]
    by_cases hb : h.rehashThreshold.below (floatOfUInt32 (h.noObjects / h.tableSize)) = true
    · rw [if_pos hb, runs_bind]
      exact hdue ⟨ha, hb⟩
    · rw [if_neg hb]
      exact hnot fun hd => hb hd.2

/-- Settings that differ in the size of the table only. -/
def Alike (u v : UserSettings) : Prop := v = { u with tableSize := v.tableSize }

/-- What the settings must allow before an insertion that rehashes: the doubled size is not zero,
unless there is nothing to move, and the counters are right. -/
def CanDouble (h : HiHandle δ) (bs : List (List (Stored δ))) : Prop :=
  (h.tableSize * 2 ≠ 0 ∨ bs.flatten = []) ∧ Fits bs

theorem Inserted.outcome {G : Engine δ} {k : Key} {d : δ} {r : Int × HiHandle δ} {w' : World}
    {mayFail : Prop} (hr : G.Rep h w' bs) (hi : Inserted G h w bs k d r w')
    (hfail : w.SomeFailed w' → mayFail) :
    r.2.toUserSettings = h.toUserSettings ∧ ∃ bs', G.Rep r.2 w' bs' ∧
      Outcome h.keyCmp mayFail bs.flatten (.insert k d) ⟨r.1, none⟩ bs'.flatten := by
  rcases hi with ⟨hf, rfl⟩ | ⟨hf, h₀, hu, x, bs', hx, hrep, hp, -⟩ | ⟨hf, h₁, h₂, hs, he⟩
  · exact ⟨rfl, bs, hr, .inl ⟨hf, rfl, .refl _⟩⟩
  · refine ⟨hu, bs', hrep, .inr (.inl ⟨hf, by rw [h₀], ?_⟩)⟩
    rw [← hx]
    exact hp.map _
  · rw [he]
    exact ⟨rfl, bs, hr, .inr (.inr ⟨hfail hs, hf, ⟨h₁, h₂, rfl⟩, .refl _⟩)⟩

/-- An outcome only depends on the pairs and on what is found. -/
theorem Outcome.of_find {cmp : KeyCmp} {mayFail : Prop} {E E₁ E' : List (Stored δ)} {k : Key} {d : δ}
    {r : Result δ} (h : Outcome cmp mayFail E₁ (.insert k d) r E')
    (hf : (cmp.find E₁ k).map Stored.pair = (cmp.find E k).map Stored.pair)
    (hp : (E₁.map Stored.pair).Perm (E.map Stored.pair)) :
    Outcome cmp mayFail E (.insert k d) r E' := by
  have hn : cmp.find E₁ k = none ↔ cmp.find E k = none := by
    rw [← Option.map_eq_none_iff (f := Stored.pair), hf, Option.map_eq_none_iff]
  rcases h with ⟨h₁, h₂, h₃⟩ | ⟨h₁, h₂, h₃⟩ | ⟨h₁, h₂, h₃, h₄⟩
  · exact .inl ⟨fun h => h₁ (hn.mpr h), h₂, h₃.trans hp⟩
  · exact .inr (.inl ⟨hn.mp h₁, h₂, h₃.trans (hp.cons _)⟩)
  · exact .inr (.inr ⟨h₁, hn.mp h₂, h₃, h₄.trans hp⟩)

theorem lhiSetSanityCheck_ok {s : HiInitSet} {u : UserSettings} (h : lhiSetSanityCheck s = .ok u) :
    u.tableSize ≠ 0 ∧ u.tableSize = s.tableSize ∧ u.collEng = s.collEng ∧
      u.rehashAuto = s.rehashAuto ∧ u.collEngArraySize = s.collEngArraySize ∧
      s.hashFunc = some u.hashFunc ∧ u.hash2Func = s.hash2Func ∧ s.keyCmp = some u.keyCmp := by
  unfold lhiSetSanityCheck at h
  split at h
  · cases h
  · rename_i hsize
    split at h
    · cases h
    · cases h
    · rename_i hk hf
      rcases ite_eq_iff.mp h with ⟨-, h⟩ | ⟨-, h⟩
      · cases h
      · cases h
        exact ⟨hsize, rfl, rfl, rfl, rfl, hf, rfl, hk⟩

namespace Engine

variable {G : Engine δ} {k : Key} {d : δ}

/-- `hi_insert`, with the rehashing it may start. -/
theorem runs_hiInsert (hc : G.covers h.collEng) (hr : G.Rep h w bs) (hu : h.tableSize ≠ 0)
    (had : G.Admits h.hashFunc h.keyCmp (keysWith bs.flatten k))
    (hdouble : h.Due → CanDouble h bs) :
    Total (hiInsert h k.bytes k.keylen d) w fun r w' =>
      Alike h.toUserSettings r.2.toUserSettings ∧ r.2.tableSize ≠ 0 ∧ ∃ bs', G.Rep r.2 w' bs' ∧
        Outcome h.keyCmp (w.SomeFailed w') bs.flatten (.insert k d) ⟨r.1, none⟩ bs'.flatten := by
  unfold hiInsert hiInsertWith
  refine Runs.bind (G.lookup hc hr hu had) fun found w₁ hw₁ h₁ => ?_
  have hr₁ := G.mono hr hw₁
  rcases h₁ with ⟨rfl, hf⟩ | ⟨hne, hl⟩
  · rw [if_pos rfl]
    exact ⟨rfl, hu, bs, hr₁, .inl ⟨hf, rfl, .refl _⟩⟩
  rw [if_neg hne]
  -- The insertion itself, into the handle as it was.
  have hplain : ∀ w₂, w₁ ≤ w₂ → Total (engineInsert h k.bytes k.keylen d) w₂ fun r w' =>
      Alike h.toUserSettings r.2.toUserSettings ∧ r.2.tableSize ≠ 0 ∧ ∃ bs', G.Rep r.2 w' bs' ∧
        Outcome h.keyCmp (w.SomeFailed w') bs.flatten (.insert k d) ⟨r.1, none⟩ bs'.flatten := by
    intro w₂ hw₂
    have hr₂ := G.mono hr₁ hw₂
    refine (G.runs_engineInsert hc hr₂ hu had hl).and_grows.imp fun r w₃ h₃ => ?_
    obtain ⟨hu', h₄⟩ := h₃.2.outcome (G.mono hr₂ h₃.1) fun hs => hs.within (hw₁.trans hw₂) le_rfl
    refine ⟨?_, ?_, h₄⟩
    · rw [hu']
      rfl
    · rw [show r.2.tableSize = h.tableSize from congrArg UserSettings.tableSize hu']
      exact hu
  refine runs_bind.mpr (runs_doRehash hu (fun hdue => ?_) fun _ => hplain w₁ le_rfl)
  obtain ⟨hn, hfit⟩ := hdouble hdue
  have hkeys : ∀ q, G.Known h bs q → ∀ x ∈ bs.flatten, G.Known h bs x.key := fun q hq x hx =>
    G.admits_mono hq fun q' hq' => by
      rcases hq' with rfl | hq'
      · exact keysWith_mem hx
      · exact .inr hq'
  refine (G.runs_hiRehash_fits hc hr₁ hu hn (hkeys k had) hfit).and_grows.imp fun r w₂ h₂ => ?_
  obtain ⟨hw₂, ⟨-, hn', hu', bs', hrep, hperm, hfind⟩ | ⟨-, he⟩⟩ := h₂
  · -- The insertion into the new table, which holds the same pairs.
    have hcmp : r.2.keyCmp = h.keyCmp := (congrArg UserSettings.keyCmp hu' :)
    have hhash : r.2.hashFunc = h.hashFunc := (congrArg UserSettings.hashFunc hu' :)
    have hcov : G.covers r.2.collEng := by
      rw [show r.2.collEng = h.collEng from (congrArg UserSettings.collEng hu' :)]
      exact hc
    have hsize : r.2.tableSize ≠ 0 := by
      rw [show r.2.tableSize = h.tableSize * 2 from (congrArg UserSettings.tableSize hu' :)]
      exact hn'
    have had' : G.Admits r.2.hashFunc r.2.keyCmp (keysWith bs'.flatten k) := by
      rw [hcmp, hhash]
      refine G.admits_mono had fun q => keysWith_mono fun x hx => ?_
      obtain ⟨y, hy, he⟩ := List.mem_map.mp (hperm.mem_iff.mp (List.mem_map_of_mem hx))
      exact ⟨y, hy, congrArg Prod.fst he⟩
    have hl' : G.lateDup ∨ r.2.keyCmp.find bs'.flatten k = none := by
      refine hl.imp_right fun hl => ?_
      have := hfind k had
      rw [hl] at this
      rw [hcmp]
      exact Option.map_eq_none_iff.mp this
    refine (G.runs_engineInsert hcov hrep hsize had' hl').and_grows.imp fun r' w₃ h₃ => ?_
    obtain ⟨hu₃, bs₃, hrep₃, ho⟩ :=
      h₃.2.outcome (G.mono hrep h₃.1) fun hs => hs.within (hw₁.trans hw₂) le_rfl
    refine ⟨?_, ?_, bs₃, hrep₃, ?_⟩
    · rw [Alike, hu₃, hu']
    · rw [show r'.2.tableSize = r.2.tableSize from congrArg UserSettings.tableSize hu₃]
      exact hsize
    · rw [hcmp] at ho
      exact ho.of_find (hfind k had) hperm
  · rw [he]
    exact hplain w₂ hw₂

/-! ## Runs -/

/-- The handle belongs to the engine, was created with the settings `u`, and holds the map `m`. -/
structure MapRep (G : Engine δ) (u : UserSettings) (h : HiHandle δ) (w : World)
    (m : KeyMap u.keyCmp δ) (bs : List (List (Stored δ))) : Prop where
  covered : G.covers u.collEng
  settings : Alike u h.toUserSettings
  tableSize : h.tableSize ≠ 0
  rep : G.Rep h w bs
  holds : Holds m bs.flatten

/-- The condition on a call: the engine can compare its key with the stored keys, and if it rehashes,
the doubled size is not zero, or there is nothing to move, and no counter of a bucket can have
wrapped. -/
def CallOk (G : Engine δ) (u : UserSettings) (m : KeyMap u.keyCmp δ) (h : HiHandle δ) (_w : World)
    (op : MapOp δ) : Prop :=
  G.Admits u.hashFunc u.keyCmp (mapKeys m op.key) ∧
    (u.rehashAuto ≠ 0 → h.Due → (h.tableSize * 2 ≠ 0 ∨ m.size = 0) ∧ m.size < 2 ^ 32)

theorem length_le_flatten {l : List (Stored δ)} (hl : l ∈ bs) : l.length ≤ bs.flatten.length :=
  (List.sublist_flatten_of_mem hl).length_le

/-- One call answers as the map does, and leaves a handle that holds the map after it. -/
theorem runs_mapOp {u : UserSettings} {m : KeyMap u.keyCmp δ} {op : MapOp δ}
    (heq : Equivalence u.keyCmp.same) (hm : ∃ bs, MapRep G u h w m bs)
    (hok : CallOk G u m h w op) :
    Total (op.call h) w fun r w' =>
      (mapMachine u.keyCmp δ (w.SomeFailed w')).allows m op r.1 ∧
      ∃ bs, MapRep G u r.2 w' ((mapMachine u.keyCmp δ (w.SomeFailed w')).next m op r.1) bs := by
  obtain ⟨bs, hcov, hset, hsize, hrep, hholds⟩ := hm
  have hcmp : h.keyCmp = u.keyCmp := (congrArg UserSettings.keyCmp hset :)
  have hhash : h.hashFunc = u.hashFunc := (congrArg UserSettings.hashFunc hset :)
  have hc : G.covers h.collEng := by
    rw [show h.collEng = u.collEng from (congrArg UserSettings.collEng hset :)]
    exact hcov
  have had : G.Admits h.hashFunc h.keyCmp (keysWith bs.flatten op.key) := by
    rw [hcmp, hhash]
    exact G.admits_mono hok.1 fun q => keysWith_of_holds hholds
  -- An outcome of the call is an answer of the map.
  have hdone : ∀ (r : Result δ) (h' : HiHandle δ) (w' : World) (bs' : List (List (Stored δ))),
      Alike h.toUserSettings h'.toUserSettings → h'.tableSize ≠ 0 → G.Rep h' w' bs' →
      Outcome u.keyCmp (w.SomeFailed w') bs.flatten op r bs'.flatten →
      (mapMachine u.keyCmp δ (w.SomeFailed w')).allows m op r ∧
        ∃ bs, MapRep G u h' w' ((mapMachine u.keyCmp δ (w.SomeFailed w')).next m op r) bs := by
    intro r h' w' bs' hset' hsize' hrep' ho
    obtain ⟨hallow, hnext⟩ := ho.refines heq hholds
    refine ⟨hallow, bs', hcov, ?_, hsize', hrep', hnext⟩
    rw [Alike, hset', hset]
  cases op with
  | insert k d =>
    have hdouble : h.Due → CanDouble h bs := fun hdue => by
      have hauto : h.rehashAuto = u.rehashAuto := (congrArg UserSettings.rehashAuto hset :)
      obtain ⟨h₁, h₂⟩ := hok.2 (hauto ▸ hdue.1) hdue
      rw [hholds.size] at h₁ h₂
      exact ⟨h₁.imp_right List.length_eq_zero_iff.mp,
        fun l hl => Nat.lt_of_le_of_lt (length_le_flatten hl) h₂⟩
    refine runs_bind.mpr ((G.runs_hiInsert (d := d) hc hrep hsize had hdouble).imp ?_)
    rintro ⟨ret, h'⟩ w' ⟨hset', hsize', bs', hrep', ho⟩
    refine hdone _ _ _ bs' hset' hsize' hrep' ?_
    rwa [hcmp] at ho
  | get k =>
    refine (G.get hc hrep hsize had).imp ?_
    rintro ⟨r, h'⟩ w' ⟨hres, hset', bs', hrep', hp⟩
    have hp' : bs'.flatten.Perm bs.flatten := List.Perm.flatten_congr hp
    refine hdone _ _ _ bs' ?_ ?_ hrep' ⟨hcmp ▸ hres, hp'.map _⟩
    · rw [hset']
      rfl
    · rw [show h'.tableSize = h.tableSize from congrArg UserSettings.tableSize hset']
      exact hsize
  | remove k =>
    refine (G.remove hc hrep hsize had).imp ?_
    rintro ⟨r, h'⟩ w' ⟨hres, hset', bs', hrep', hp⟩
    rw [hcmp] at hres hp
    dsimp only [MapOp.key] at hp
    refine hdone _ _ _ bs' ?_ ?_ hrep' ⟨hres, ?_⟩
    · rw [hset']
      rfl
    · rw [show h'.tableSize = h.tableSize from congrArg UserSettings.tableSize hset']
      exact hsize
    · cases hf : u.keyCmp.find bs.flatten k with
      | none =>
        rw [hf] at hp
        exact hp.map _
      | some x =>
        rw [hf] at hp
        exact hp.map _

/-- Every run of calls that meet their condition is a run of the abstract map, in which an insertion
may fail when one of its own requests does. -/
theorem runs_mapOps {u : UserSettings} {m : KeyMap u.keyCmp δ} {ops : List (MapOp δ)}
    (heq : Equivalence u.keyCmp.same) (hm : ∃ bs, MapRep G u h w m bs)
    (hok : Meets MapOp.call (mapMachine u.keyCmp δ True) (CallOk G u) ops m h w) :
    Total (Prog.calls MapOp.call ops h) w fun r w' =>
      ∃ m', Prog.Traces MapOp.call (fun w w' => mapMachine u.keyCmp δ (w.SomeFailed w'))
          m h w ops r.1 m' ∧
        ∃ bs, MapRep G u r.2 w' m' bs :=
  runs_traces (R := fun h' w' m' => ∃ bs, MapRep G u h' w' m' bs) hm hok fun _ _ _ _ hR hop =>
    (runs_mapOp heq hR hop).imp fun _ _ h₁ => ⟨h₁.1, rfl, h₁.2⟩

/-! ## The start -/

/-- A new handle holds the empty map. -/
theorem runs_hiCreate {s : HiInitSet} {u : UserSettings} (hs : lhiSetSanityCheck s = .ok u)
    (hc : G.covers u.collEng) :
    Total (hiCreate s : Prog (Except Int (HiHandle δ))) w fun r w' =>
      (r = .error hiErrSystem ∧ ¬ w.AllocsSucceed) ∨
      ∃ h, r = .ok h ∧ h.toUserSettings = u ∧
        MapRep G u h w' .empty (List.replicate u.tableSize.toNat []) := by
  unfold hiCreate lhiCreateVanillaHdnl
  rw [hs]
  refine runs_bind.mpr (runs_bind.mpr (runs_xallocAlign (fun _ w₁ _ _ h _ => .inl ⟨rfl, h⟩) ?_))
  intro junk w₁ hw₁ _ _
  refine (G.runs_createWith hc).imp ?_
  rintro r w₂ (⟨rfl, h⟩ | ⟨h, rfl, hu, hrep⟩)
  · exact .inl ⟨rfl, fun h' => h (h'.mono hw₁)⟩
  · refine .inr ⟨h, rfl, hu, hc, ?_, ?_, hrep, ?_⟩
    · rw [hu]
      rfl
    · rw [show h.tableSize = u.tableSize from congrArg UserSettings.tableSize hu]
      exact (lhiSetSanityCheck_ok hs).1
    · rw [Holds, List.flatten_replicate_nil]
      exact .refl _

end Engine

end Hashish
