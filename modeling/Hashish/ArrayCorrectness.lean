import Hashish.ArraySpec
import Hashish.ManyKeys
import Hashish.Sessions

/-!
# The array engine is correct

* `array_session_refines_map`: as long as no bucket has `2 ^ 31` slots, `COLL_ENG_ARRAY`
  gives the answers of the abstract map, and its counters are right.
-/

namespace Hashish

open Hashish.Lib

variable {δ : Type} {w : World} {h : HiHandle δ} {bs : List (List (Option (Stored δ)))}

/-! ## One call -/

/-- No bucket has `2 ^ 31` slots. -/
def HiHandle.SlotsBelow (h : HiHandle δ) : Prop :=
  ∀ n ∈ h.bucketArraySlotMax.cells, n.toNat < 2 ^ 31

theorem ArrayRep.slotsBelow_iff (hr : ArrayRep h bs) :
    h.SlotsBelow ↔ ∀ l ∈ bs, l.length < 2 ^ 31 := by
  have hone : ∀ l ∈ bs, (UInt32.ofNat l.length).toNat = l.length := fun l hl => by
    rw [UInt32.toNat_ofNat', Nat.mod_eq_of_lt (hr.fits l hl)]
  rw [HiHandle.SlotsBelow, hr.maxs]
  constructor
  · intro hb l hl
    rw [← hone l hl]
    exact hb _ (List.mem_map_of_mem hl)
  · intro hb n hn
    obtain ⟨l, hl, rfl⟩ := List.mem_map.mp hn
    rw [hone l hl]
    exact hb l hl

/-- A call on a table that does not rehash changes the contents as the map would. -/
theorem ArrayRep.runs_call (hr : ArrayRep h bs) (he : h.collEng = .array) (hu : h.tableSize ≠ 0)
    (hauto : h.rehashAuto = 0) (hbelow : h.SlotsBelow) (hw : w.AllocsSucceed) {op : MapOp δ}
    (hok : h.hashFunc.Respects h.keyCmp (keysWith (arrayContents bs).flatten op.key)) :
    Total (op.call h) w fun r w' => w'.AllocsSucceed ∧ r.2.toUserSettings = h.toUserSettings ∧
      ∃ bs', ArrayRep r.2 bs' ∧ GrowsFrom bs bs' ∧
        Outcome h.keyCmp False (arrayContents bs).flatten op r.1 (arrayContents bs').flatten := by
  obtain ⟨l, hb⟩ := hr.exists_bucket hu op.key
  have hfind := hr.find_contents hok hb
  cases op with
  | insert k d =>
    dsimp only [MapOp.key] at hb hfind
    have hlt := hr.slotsBelow_iff.mp hbelow l (List.mem_of_getElem? hb)
    unfold MapOp.call hiInsert hiInsertWith hiLookup doRehash engineInsert
    simp only [he, hauto, runs_bind, runs_pure, if_true]
    rw [if_neg (show ¬ failure = success by decide), runs_bind, runs_pure]
    simp only [he]
    refine hr.runs_lhiInsertArray he hu hb ?_ ?_ ?_ ?_ ?_
    · intro hf w' hw' _
      exact ⟨hw.mono hw', rfl, bs, hr, .refl bs, .inl ⟨by rwa [hfind], rfl, .refl _⟩⟩
    · exact fun _ _ _ _ hs => (hs.not_allocsSucceed hw).elim
    · exact fun _ _ hlen => absurd hlt (Nat.not_lt.mpr hlen)
    · exact fun _ _ _ _ _ _ hs => (hs.not_allocsSucceed hw).elim
    · intro hf x p q n h' w' hw' _ _ hx hpq hu' hr' _
      have hlen : (p ++ some x :: q).length = (grown l).length := by simp [hpq]
      refine ⟨hw.mono hw', hu', _, hr', .set hb (hlen ▸ length_grown l),
        .inr (.inl ⟨by rwa [hfind], rfl, ?_⟩)⟩
      have hp := (perm_of_fill hb (x := x) hpq).map Stored.pair
      rwa [List.map_cons, hx] at hp
  | get k =>
    unfold MapOp.call hiGet
    simp only [he, runs_bind, runs_pure]
    refine (hr.runs_lhiGetArray he hu hb).and_grows.imp fun r w' h' => ?_
    exact ⟨hw.mono h'.1, trivial, bs, hr, .refl bs, h'.2.1.trans (congrArg _ hfind.symm), .refl _⟩
  | remove k =>
    dsimp only [MapOp.key] at hb hfind
    unfold MapOp.call hiRemove
    simp only [he, Outcome, hfind]
    refine hr.runs_lhiRemoveArray he hu hb (fun hn w' hw' _ => ?_) ?_
    · rw [hn]
      exact ⟨hw.mono hw', rfl, bs, hr, .refl bs, rfl, .refl _⟩
    · rintro p x q h' w' rfl hx hr' hu' hw' -
      rw [hx]
      refine ⟨hw.mono hw', hu', _, hr', .set hb (.inl (by simp)), rfl, ?_⟩
      exact (perm_of_clear hb).map Stored.pair

/-! ## The counters -/

/-- The slots of each bucket are as many as `slot_max` says, the allocated ones as many as
`slot_size` says, and hold different keys. -/
structure SlotsConsistent (h : HiHandle δ) : Prop where
  counted : ∀ (b : Nat) (blk : Block (HiBucketAObj δ)), h.bucketArray.cells[b]? = some blk →
    ∃ n m, h.bucketArraySlotSize.cells[b]? = some n ∧ h.bucketArraySlotMax.cells[b]? = some m ∧
      n.toNat = blk.cells.countP (fun slot => slot.allocation = some .baAllocated) ∧
      m.toNat = blk.cells.length ∧ n ≤ m
  distinct : ∀ (b : Nat) (blk : Block (HiBucketAObj δ)), h.bucketArray.cells[b]? = some blk →
    blk.cells.Pairwise fun slot slot' => ∀ e e', slot = ⟨some e, some .baAllocated⟩ →
      slot' = ⟨some e', some .baAllocated⟩ → h.keyCmp e.key.cells e'.key.cells ≠ 0

theorem SlotShows.allocated {slot : HiBucketAObj δ} {x : Option (Stored δ)} (hs : SlotShows slot x) :
    decide (slot.allocation = some .baAllocated) = x.isSome := by
  cases x with
  | none =>
    rw [show slot.allocation = some .baNotAllocated from hs]
    rfl
  | some x =>
    rw [show slot = ⟨some x.entry, some .baAllocated⟩ from hs]
    rfl

theorem SlotShows.eq_some {slot : HiBucketAObj δ} {x : Option (Stored δ)} {e : Entry δ}
    (hs : SlotShows slot x) (he : slot = ⟨some e, some .baAllocated⟩) :
    ∃ y, x = some y ∧ y.entry = e := by
  subst he
  cases x with
  | none => cases hs
  | some y => exact ⟨y, rfl, by cases hs; rfl⟩

theorem SlotsShow.countP {blk : Block (HiBucketAObj δ)} {l : List (Option (Stored δ))}
    (hs : SlotsShow blk l) :
    blk.cells.countP (fun slot => slot.allocation = some .baAllocated) =
      l.reduceOption.length := by
  have hmap : blk.cells.map (fun slot => decide (slot.allocation = some .baAllocated)) =
      l.map Option.isSome := by
    refine List.ext_getElem? fun i => ?_
    rw [List.getElem?_map, List.getElem?_map]
    by_cases hi : i < l.length
    · obtain ⟨slot, hslot, hx⟩ := hs.shows i _ (List.getElem?_eq_getElem hi)
      rw [hslot, List.getElem?_eq_getElem hi, Option.map_some, Option.map_some, hx.allocated]
    · rw [List.getElem?_eq_none (Nat.not_lt.mp hi),
        List.getElem?_eq_none (hs.length ▸ Nat.not_lt.mp hi)]
      rfl
  calc blk.cells.countP (fun slot => slot.allocation = some .baAllocated)
      = (blk.cells.map fun slot => decide (slot.allocation = some .baAllocated)).countP id := by
        rw [List.countP_map]
        rfl
    _ = l.countP Option.isSome := by
        rw [hmap, List.countP_map]
        rfl
    _ = l.reduceOption.length := by
        rw [List.countP_eq_length_filter, List.reduceOption_length_eq]

theorem ArrayRep.consistent (hr : ArrayRep h bs) (heq : Equivalence h.keyCmp.same)
    {m : KeyMap h.keyCmp δ} (hm : Holds m (arrayContents bs).flatten) : SlotsConsistent h := by
  have hbucket : ∀ (b : Nat) (blk : Block (HiBucketAObj δ)), h.bucketArray.cells[b]? = some blk →
      ∃ l, bs[b]? = some l ∧ SlotsShow blk l := by
    intro b blk hblk
    have hlt : b < bs.length := hr.arrayLength ▸ (List.getElem?_eq_some_iff.mp hblk).1
    obtain ⟨blk', hblk', hs⟩ := hr.slots b _ (List.getElem?_eq_getElem hlt)
    cases hblk.symm.trans hblk'
    exact ⟨_, List.getElem?_eq_getElem hlt, hs⟩
  have hpairs := hm.pairwise heq
  refine ⟨fun b blk hblk => ?_, fun b blk hblk => ?_⟩
  · obtain ⟨l, hb, hs⟩ := hbucket b blk hblk
    refine ⟨_, _, hr.size_of_bucket hb, hr.max_of_bucket hb, ?_, ?_, ?_⟩
    · rw [hr.toNat_size hb, hs.countP]
    · rw [hr.toNat_max hb, hs.length]
    · rw [UInt32.le_iff_toNat_le, hr.toNat_size hb, hr.toNat_max hb]
      exact l.reduceOption_length_le
  · obtain ⟨l, hb, hs⟩ := hbucket b blk hblk
    have hsub : l.reduceOption.Sublist (arrayContents bs).flatten :=
      List.sublist_flatten_of_mem (List.mem_of_getElem? (arrayContents_getElem hb))
    have hl := List.pairwise_filterMap.mp (hpairs.sublist hsub)
    rw [List.pairwise_iff_getElem] at hl ⊢
    intro i j hi hj hij e e' he he'
    have hi' : i < l.length := hs.length ▸ hi
    have hj' : j < l.length := hs.length ▸ hj
    have hx : SlotShows blk.cells[i] l[i] := by
      obtain ⟨slot, hslot, hx⟩ := hs.shows i _ (List.getElem?_eq_getElem hi')
      rw [List.getElem?_eq_getElem hi] at hslot
      exact Option.some_inj.mp hslot ▸ hx
    have hy : SlotShows blk.cells[j] l[j] := by
      obtain ⟨slot, hslot, hy⟩ := hs.shows j _ (List.getElem?_eq_getElem hj')
      rw [List.getElem?_eq_getElem hj] at hslot
      exact Option.some_inj.mp hslot ▸ hy
    obtain ⟨x, hlx, rfl⟩ := hx.eq_some he
    obtain ⟨y, hly, rfl⟩ := hy.eq_some he'
    exact hl i j hi' hj' hij x hlx y hly

/-! ## Runs -/

/-- The answers of a map are those of a map. -/
theorem mapStep_ne_internal {cmp : KeyCmp} (m : KeyMap cmp δ) (op : MapOp δ) :
    (mapStep m op).1.status ≠ hiErrInternal := by
  have hanswer : ∀ d : Option δ, (answerOf d).status ≠ hiErrInternal := by
    rintro (_ | d)
    · exact (by decide : hiErrNokey ≠ hiErrInternal)
    · exact (by decide : success ≠ hiErrInternal)
  cases op with
  | insert k d =>
    rw [mapStep]
    split
    · exact (by decide : success ≠ hiErrInternal)
    · exact (by decide : hiErrDupkey ≠ hiErrInternal)
  | get k => exact hanswer _
  | remove k => exact hanswer _

theorem mapRun_ne_internal {cmp : KeyCmp} (m : KeyMap cmp δ) (ops : List (MapOp δ)) :
    ∀ r ∈ (mapRun m ops).1, r.status ≠ hiErrInternal := by
  induction ops generalizing m with
  | nil => exact nofun
  | cons op ops ih =>
    intro r hr
    rcases List.mem_cons.mp hr with rfl | hr
    · exact mapStep_ne_internal m op
    · exact ih _ r hr

/-- Settings that the checks of the array engine let through. -/
theorem lhiSetSanityCheck_array {s : HiInitSet} {f : HashFunc} {cmp : KeyCmp}
    (hsize : s.tableSize ≠ 0) (hslots : s.collEngArraySize ≠ 0) (hhash : s.hashFunc = some f)
    (hcmp : s.keyCmp = some cmp) (he : s.collEng = .array) :
    lhiSetSanityCheck s = .ok ⟨s.tableSize, s.collEng, s.rehashAuto, s.rehashThreshold,
      s.collEngArraySize, f, s.hash2Func, cmp⟩ := by
  simp [lhiSetSanityCheck, lhiSetSanityArray, hsize, hslots, hhash, hcmp, he]

/-- The handle belongs to the array engine, was created with the settings `u`, and holds `m`. -/
def ArrayHolds (u : UserSettings) (h : HiHandle δ) (w : World) (m : KeyMap u.keyCmp δ) : Prop :=
  w.AllocsSucceed ∧ h.toUserSettings = u ∧
    ∃ bs, ArrayRep h bs ∧ Holds m (arrayContents bs).flatten

theorem ArrayHolds.runs_call {u : UserSettings} {m : KeyMap u.keyCmp δ} {op : MapOp δ}
    (hm : ArrayHolds u h w m) (he : u.collEng = .array) (hu : u.tableSize ≠ 0)
    (hauto : u.rehashAuto = 0) (heq : Equivalence u.keyCmp.same)
    (hresp : u.hashFunc.Respects u.keyCmp fun _ => True) (hbelow : h.SlotsBelow) :
    Total (op.call h) w fun r w' => (mapMachine u.keyCmp δ False).allows m op r.1 ∧
      ArrayHolds u r.2 w' ((mapMachine u.keyCmp δ False).next m op r.1) := by
  obtain ⟨hw, rfl, bs, hr, hholds⟩ := hm
  have hok : h.hashFunc.Respects h.keyCmp (keysWith (arrayContents bs).flatten op.key) :=
    fun k k' _ _ => hresp k k' trivial trivial
  refine (hr.runs_call he hu hauto hbelow hw hok).imp fun r w' h' => ?_
  obtain ⟨hw', hu', bs', hr', -, ho⟩ := h'
  obtain ⟨hallow, hnext⟩ := ho.refines heq hholds
  exact ⟨hallow, hw', hu', bs', hr', hnext⟩

/-- `COLL_ENG_ARRAY` answers as the map does in every run in which no bucket has `2 ^ 31` slots. At
its end, hence after each of its calls, the counters of the buckets are right, their keys differ, and
`no_objects` is the size of the map, counted modulo `2 ^ 32`. -/
theorem array_session_refines_map {s : HiInitSet} {f : HashFunc} {cmp : KeyCmp}
    (hsize : s.tableSize ≠ 0) (hslots : s.collEngArraySize ≠ 0) (hauto : s.rehashAuto = 0)
    (heng : s.collEng = .array) (hhash : s.hashFunc = some f) (hcmp : s.keyCmp = some cmp)
    (heq : Equivalence cmp.same) (hresp : ∀ k k', cmp.same k k' → f.hash k = f.hash k')
    (hw : w.AllocsSucceed) (ops : List (MapOp δ)) :
    Total (hiCreate s : Prog (Except Int (HiHandle δ))) w fun r w₁ => ∃ h, r = .ok h ∧
      (Meets MapOp.call Machine.any (fun _ h _ _ => h.SlotsBelow) ops () h w₁ →
        Total (Prog.calls MapOp.call ops h) w₁ fun r' _ =>
          r'.1 = (mapSession cmp ops).1 ∧
          (∀ a ∈ r'.1, a.status ≠ hiErrInternal) ∧
          SlotsConsistent r'.2 ∧
          (∃ bs, ArrayRep r'.2 bs ∧ Holds (mapSession cmp ops).2 (arrayContents bs).flatten) ∧
          r'.2.noObjects = UInt32.ofNat (mapSession cmp ops).2.size ∧
          ((mapSession cmp ops).2.size < 2 ^ 32 →
            r'.2.noObjects.toNat = (mapSession cmp ops).2.size)) := by
  have hcheck := lhiSetSanityCheck_array hsize hslots hhash hcmp heng
  refine ArrayRep.runs_hiCreate hcheck heng hslots (fun _ _ hs => (hs hw).elim) ?_
  intro h w₁ hw₁ hset hr
  refine ⟨h, rfl, fun hmeets => ?_⟩
  have hcont : (arrayContents (List.replicate s.tableSize.toNat
      (List.replicate s.collEngArraySize.toNat (none : Option (Stored δ))))).flatten = [] := by
    rw [arrayContents, List.map_replicate, List.reduceOption_replicate_none,
      List.flatten_replicate_nil]
  have hstart : ArrayHolds _ h w₁ .empty :=
    ⟨hw.mono hw₁, hset, _, hr, by rw [hcont]; exact .refl _⟩
  have hresp' : f.Respects cmp fun _ => True := fun k k' _ _ => hresp k k'
  refine (runs_calls (R := fun h w m => ArrayHolds _ h w m) hstart hmeets.of_any
    fun op h w m hm hbelow => hm.runs_call heng hsize hauto heq hresp' hbelow).imp ?_
  rintro ⟨rs, h'⟩ w' ⟨m, ht, -, hset', bs, hr', hholds⟩
  have hrun : mapSession cmp ops = (rs, m) := mapRun_of_trace id ht
  have hcount : h'.noObjects = UInt32.ofNat m.size := by
    rw [hr'.count, hholds.size]
  have hkeys : h'.keyCmp = cmp := (congrArg UserSettings.keyCmp hset' :)
  subst hkeys
  rw [hrun]
  refine ⟨rfl, ?_, hr'.consistent heq hholds, ⟨bs, hr', hholds⟩, hcount, fun hlt => ?_⟩
  · have hne := mapRun_ne_internal (.empty : KeyMap h'.keyCmp δ) ops
    rwa [show mapRun .empty ops = (rs, m) from hrun] at hne
  · rw [hcount, UInt32.toNat_ofNat', Nat.mod_eq_of_lt hlt]

/-- A table of one bucket with the given number of slots. -/
def oneArray (slots : UInt32) : HiInitSet :=
  { hiSetZero with
    tableSize := 1, collEngArraySize := slots, collEng := .array, keyCmp := some hiCmpUint16T,
    hashFunc := some ⟨0, lhiHashDumb1⟩ }

/-- Three keys in one bucket of two slots, which is doubled for the third. -/
theorem array_session_refines_map_three :
    ∃ h w₀, (hiCreate (oneArray 2)).run (World.start fun _ _ => 0) = .ok (.ok h, w₀) ∧
      Total (Prog.calls MapOp.call [.insert ⟨[1, 0], by decide⟩ "one",
          .insert ⟨[2, 0], by decide⟩ "two", .insert ⟨[3, 0], by decide⟩ "three",
          .get ⟨[2, 0], by decide⟩, .remove ⟨[1, 0], by decide⟩, .get ⟨[1, 0], by decide⟩] h) w₀
        fun r _ => r.1 = [⟨success, none⟩, ⟨success, none⟩, ⟨success, none⟩, ⟨success, some "two"⟩,
          ⟨success, some "one"⟩, ⟨hiErrNokey, none⟩] ∧ r.2.noObjects = 2 := by
  obtain ⟨h, w₀, hcreate, hmet⟩ : ∃ (h : HiHandle String) (w₀ : World),
      (hiCreate (oneArray 2)).run (World.start fun _ _ => 0) = .ok (.ok h, w₀) ∧
        Prog.met MapOp.call Machine.any
          (fun _ h _ _ => h.bucketArraySlotMax.cells.all fun n => decide (n.toNat < 2 ^ 31))
          [.insert ⟨[1, 0], by decide⟩ "one", .insert ⟨[2, 0], by decide⟩ "two",
            .insert ⟨[3, 0], by decide⟩ "three", .get ⟨[2, 0], by decide⟩,
            .remove ⟨[1, 0], by decide⟩, .get ⟨[1, 0], by decide⟩] () h w₀ = true :=
    ⟨_, _, rfl, rfl⟩
  obtain ⟨h', he, hruns⟩ := (array_session_refines_map (s := oneArray 2) (by decide) (by decide)
    rfl rfl rfl rfl orderOn_hiCmpUint16T.equivalence (fun _ _ _ => rfl)
    (World.start_allocsSucceed _) _).of_run hcreate
  cases he
  refine ⟨h, w₀, hcreate, (hruns (.of_met (fun _ h _ _ _ hok n hn => ?_) hmet)).imp
    fun r _ hr => ⟨hr.1, hr.2.2.2.2.1⟩⟩
  exact of_decide_eq_true (List.all_eq_true.mp hok n hn)

/-! ## More keys than the counter can count -/

/-- A table of `2 ^ 16` buckets of `2 ^ 16` slots each. It is not to be unfolded: its creation takes
many steps. -/
@[irreducible] def wideArray : HiInitSet :=
  { hiSetZero with
    tableSize := 65536, collEngArraySize := 65536, collEng := .array, keyCmp := some cmpBytes,
    hashFunc := some ⟨0, fun key _ => UInt32.ofNat (readInt 8 key)⟩ }

/-- The settings of the handle. -/
def wideSettings : UserSettings :=
  ⟨65536, .array, 0, .fin (3 / 4), 65536, ⟨0, fun key _ => UInt32.ofNat (readInt 8 key)⟩, none,
    cmpBytes⟩

theorem wideArray_check : lhiSetSanityCheck wideArray = .ok wideSettings := by
  unfold wideArray
  exact lhiSetSanityCheck_array (by decide) (by decide) rfl rfl rfl

theorem wideSettings_bucket {n : Nat} (hn : n < 2 ^ 32) :
    wideSettings.bucket (numberKey n) = n % 2 ^ 16 := by
  show (UInt32.ofNat (readInt 8 (numberKey n).bytes) % 65536).toNat = _
  rw [readInt_numberKey (by omega), UInt32.toNat_mod, UInt32.toNat_ofNat', Nat.mod_eq_of_lt hn]
  rfl

/-- Different keys, all of them for numbers below `2 ^ 32`. -/
structure NumberKeys (ps : List (Key × δ)) : Prop where
  distinct : ps.Pairwise fun p q => ¬ KeyCmp.same cmpBytes p.1 q.1
  numbers : ∀ p ∈ ps, ∃ n < 2 ^ 32, p.1 = numberKey n

theorem NumberKeys.perm {ps qs : List (Key × δ)} (h : NumberKeys ps) (hp : qs.Perm ps) :
    NumberKeys qs :=
  ⟨hp.symm.pairwise h.distinct fun hn hs => hn (equivalence_cmpBytes.symm hs),
    fun p hq => h.numbers p (hp.mem_iff.mp hq)⟩

/-- Only one of `2 ^ 16` keys in a row falls into a bucket. -/
theorem wide_bucket_le (hu : h.toUserSettings = wideSettings) (hr : ArrayRep h bs)
    (hkeys : NumberKeys ((arrayContents bs).flatten.map Stored.pair))
    {l : List (Option (Stored δ))} (hl : l ∈ bs) : l.reduceOption.length ≤ 2 ^ 16 := by
  obtain ⟨b, hb⟩ := List.mem_iff_getElem?.mp hl
  have hsub : l.reduceOption.Sublist (arrayContents bs).flatten :=
    List.sublist_flatten_of_mem (List.mem_of_getElem? (arrayContents_getElem hb))
  -- The quotient by the number of buckets tells the keys of a bucket apart.
  have hkey : ∀ x ∈ l.reduceOption, ∃ n < 2 ^ 32, x.key = numberKey n ∧ n % 2 ^ 16 = b ∧
      readInt 8 x.key.bytes / 2 ^ 16 = n / 2 ^ 16 := by
    intro x hx
    obtain ⟨n, hn, hxn⟩ := hkeys.numbers x.pair (List.mem_map_of_mem (hsub.subset hx))
    replace hxn : x.key = numberKey n := hxn
    have hplace := hr.placed hb hx
    rw [hu, hxn, wideSettings_bucket hn] at hplace
    exact ⟨n, hn, hxn, hplace, by rw [hxn, readInt_numberKey (by omega)]⟩
  have hnodup : (l.reduceOption.map fun x => readInt 8 x.key.bytes / 2 ^ 16).Nodup := by
    have hpairs := List.pairwise_map.mp hkeys.distinct
    refine List.pairwise_map.mpr (List.Pairwise.imp_of_mem ?_ (hpairs.sublist hsub))
    intro x y hx hy hne he
    obtain ⟨n, hn, hxn, hnb, hxq⟩ := hkey x hx
    obtain ⟨n', hn', hyn, hnb', hyq⟩ := hkey y hy
    have hnn : n = n' := by omega
    exact hne (same_cmpBytes.mpr (show x.key = y.key by rw [hxn, hyn, hnn]))
  have hrange : ∀ q ∈ l.reduceOption.map fun x => readInt 8 x.key.bytes / 2 ^ 16,
      q ∈ List.range (2 ^ 16) := by
    intro q hq
    obtain ⟨x, hx, rfl⟩ := List.mem_map.mp hq
    obtain ⟨n, hn, -, -, hxq⟩ := hkey x hx
    rw [List.mem_range, hxq]
    omega
  have hle := (List.subperm_of_subset hnodup hrange).length_le
  rwa [List.length_map, List.length_range] at hle

/-- The table holds some of the keys, and no bucket has grown. -/
def WideHolds (h : HiHandle δ) (w : World) : Prop :=
  w.AllocsSucceed ∧ h.toUserSettings = wideSettings ∧ ∃ bs, ArrayRep h bs ∧
    NumberKeys ((arrayContents bs).flatten.map Stored.pair) ∧ ∀ l ∈ bs, l.length ≤ 2 ^ 17

theorem WideHolds.slotsBelow (hm : WideHolds h w) : h.SlotsBelow := by
  obtain ⟨-, -, bs, hr, -, hlen⟩ := hm
  exact hr.slotsBelow_iff.mpr fun l hl => Nat.lt_of_le_of_lt (hlen l hl) (by decide)

theorem WideHolds.runs_call (hm : WideHolds h w) {n : Nat} (hn : n < 2 ^ 32) {d : δ} :
    Total ((MapOp.insert (numberKey n) d).call h) w fun r w' => WideHolds r.2 w' := by
  have hbelow := hm.slotsBelow
  obtain ⟨hw, hu, bs, hr, hkeys, hlen⟩ := hm
  have hcmp : h.keyCmp = cmpBytes := (congrArg UserSettings.keyCmp hu :)
  have hsize : h.tableSize = 65536 := (congrArg UserSettings.tableSize hu :)
  have hok : h.hashFunc.Respects h.keyCmp (keysWith (arrayContents bs).flatten
      (MapOp.insert (numberKey n) d).key) := fun k k' _ _ hs => by
    rw [hcmp] at hs
    rw [same_cmpBytes.mp hs]
  refine (hr.runs_call (congrArg UserSettings.collEng hu) (by rw [hsize]; decide)
    (congrArg UserSettings.rehashAuto hu) hbelow hw hok).imp fun r w' h' => ?_
  obtain ⟨hw', hu', bs', hr', hgrows, ho⟩ := h'
  refine ⟨hw', hu'.trans hu, bs', hr', ?_, ?_⟩
  · rcases ho with ⟨-, -, hp⟩ | ⟨hf, -, hp⟩ | ⟨h, -⟩
    · exact hkeys.perm hp
    · have hnew : ∀ p ∈ (arrayContents bs).flatten.map Stored.pair,
          ¬ KeyCmp.same cmpBytes (numberKey n) p.1 := by
        intro p hp
        obtain ⟨x, hx, rfl⟩ := List.mem_map.mp hp
        rw [← hcmp]
        exact KeyCmp.find_eq_none.mp hf x hx
      have hcons : NumberKeys ((numberKey n, d) :: (arrayContents bs).flatten.map Stored.pair) :=
        ⟨List.pairwise_cons.mpr ⟨hnew, hkeys.distinct⟩,
          List.forall_mem_cons.mpr ⟨⟨n, hn, rfl⟩, hkeys.numbers⟩⟩
      exact hcons.perm hp
    · exact h.elim
  · -- A bucket that doubles was full of keys, which are at most `2 ^ 16`.
    intro m hm
    obtain ⟨l, hl, he | ⟨hfull, he⟩⟩ := hgrows m hm
    · exact he ▸ hlen l hl
    · have hcount : l.reduceOption.length = l.length :=
        List.reduceOption_length_eq_iff.mpr fun x hx => by
          cases x with
          | none => exact (hfull hx).elim
          | some x => rfl
      have hle := wide_bucket_le hu hr hkeys hl
      omega

/-- After `n` insertions of different keys `no_objects` is `n` modulo `2 ^ 32`. -/
theorem runs_wideArray {n : Nat} (hn : n ≤ 2 ^ 32) {ops : List (MapOp Unit)}
    (hops : ops = insertAll (List.range n)) :
    Total (hiCreate wideArray : Prog (Except Int (HiHandle Unit))) (World.start fun _ _ => 0)
      fun r w₁ => ∃ h, r = .ok h ∧
        Meets MapOp.call Machine.any (fun _ h _ _ => h.SlotsBelow) ops () h w₁ ∧
        Total (Prog.calls MapOp.call ops h) w₁ fun r' _ =>
          (mapSession cmpBytes ops).2.size = n ∧ r'.2.noObjects = UInt32.ofNat n := by
  have hresp : wideSettings.hashFunc.Respects wideSettings.keyCmp fun _ => True :=
    fun k k' _ _ hs => by rw [same_cmpBytes.mp hs]
  refine ArrayRep.runs_hiCreate wideArray_check rfl (by decide) (fun _ _ hs => ?_) ?_
  · exact (hs (World.start_allocsSucceed _)).elim
  intro h w₁ hw₁ hu hr
  have hw : w₁.AllocsSucceed := (World.start_allocsSucceed _).mono hw₁
  have hcont : (arrayContents (List.replicate wideSettings.tableSize.toNat
      (List.replicate wideSettings.collEngArraySize.toNat (none : Option (Stored Unit))))).flatten =
        [] := by
    rw [arrayContents, List.map_replicate, List.reduceOption_replicate_none,
      List.flatten_replicate_nil]
  have hstart : WideHolds h w₁ := by
    refine ⟨hw, hu, _, hr, ?_, fun l hl => ?_⟩
    · rw [hcont]
      exact ⟨.nil, by simp⟩
    · rw [(List.mem_replicate.mp hl).2, List.length_replicate]
      decide
  have hmeets : Meets MapOp.call Machine.any (fun _ h _ _ => h.SlotsBelow) ops () h w₁ := by
    refine Meets.of_invariant (R := fun h w _ => WideHolds h w) hstart
      (fun _ _ _ _ _ hm => hm.slotsBelow) fun op hop _ h w hm => ?_
    rw [hops] at hop
    obtain ⟨i, hi, rfl⟩ := List.mem_map.mp hop
    exact Runs.of_total (hm.runs_call (by have := List.mem_range.mp hi; omega))
  refine ⟨h, rfl, hmeets, ?_⟩
  have hzero : Holds (.empty : KeyMap cmpBytes Unit) (arrayContents (List.replicate
      wideSettings.tableSize.toNat (List.replicate wideSettings.collEngArraySize.toNat
        (none : Option (Stored Unit))))).flatten := by
    rw [hcont]
    exact .refl _
  refine (runs_calls (R := fun h w m => ArrayHolds wideSettings h w m) ⟨hw, hu, _, hr, hzero⟩
    hmeets.of_any fun op h w m hm hbelow => hm.runs_call rfl (by decide) rfl equivalence_cmpBytes
      hresp hbelow).imp ?_
  rintro ⟨rs, h'⟩ w' ⟨m, ht, -, hset', bs', hr', hholds⟩
  have hrun : mapSession cmpBytes ops = (rs, m) := mapRun_of_trace id ht
  have hsize : (mapSession cmpBytes ops).2.size = n := by
    have hbound : ∀ i ∈ List.range n, i < 2 ^ 64 := fun i hi => by
      have := List.mem_range.mp hi
      omega
    have hall := mapRun_insertAll (m := .empty) List.nodup_range hbound
      fun _ _ _ hp => by cases hp
    rw [List.length_range, ← hops] at hall
    exact hall.trans (Nat.zero_add n)
  refine ⟨hsize, ?_⟩
  rw [hrun] at hsize
  rw [hr'.count, ← hholds.size]
  exact congrArg _ hsize

/-- The keys of all numbers below `2 ^ 32` are inserted. It is not to be unfolded. -/
@[irreducible] def manyInsertions : List (MapOp Unit) := insertAll (List.range (2 ^ 32))

/-- After `2 ^ 32` insertions of different keys `no_objects` is zero. -/
theorem array_counter_wraps :
    Total (hiCreate wideArray : Prog (Except Int (HiHandle Unit))) (World.start fun _ _ => 0)
      fun r w₁ => ∃ h, r = .ok h ∧
        Meets MapOp.call Machine.any (fun _ h _ _ => h.SlotsBelow) manyInsertions () h w₁ ∧
        Total (Prog.calls MapOp.call manyInsertions h) w₁ fun r' _ =>
          r'.2.noObjects.toNat ≠ (mapSession cmpBytes manyInsertions).2.size := by
  have hops : manyInsertions = insertAll (List.range (2 ^ 32)) := by
    unfold manyInsertions
    with_reducible rfl
  refine (runs_wideArray (Nat.le_refl (2 ^ 32)) hops).imp ?_
  rintro r w₁ ⟨h, hr, hmeets, hrun⟩
  refine ⟨h, hr, hmeets, hrun.imp ?_⟩
  rintro r' w₂ ⟨hsize, hcount⟩
  rw [hsize, hcount]
  decide

end Hashish
