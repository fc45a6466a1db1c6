import Hashish.ArrayHoles
import Hashish.RehashCorrectness

/-!
# The counters of the buckets

`bucket_size` is to count the entries of each bucket, and `no_objects` all of them. The linked
engines keep both, up to the range of a `uint32_t`. `COLL_ENG_ARRAY` never writes `bucket_size`.

* `bucket_sizes_count_iff`: in a linked table that a session reaches, the counters are right if and
  only if there are fewer than `2 ^ 32` entries.
* `lhiInsertArray_miscounts`: an insertion into an array table that has the right sum leaves a
  wrong one.
-/

namespace Hashish

open Hashish.Lib

variable {δ : Type} {w : World} {h : HiHandle δ} {bs : List (List (Stored δ))}

/-- The sum of `bucket_size` is `no_objects`. -/
def HiHandle.SumsUp (h : HiHandle δ) : Prop :=
  (h.bucketSize.cells.map UInt32.toNat).sum = h.noObjects.toNat

/-- Each `bucket_size` is the number of keys that hash to the bucket. -/
def HiHandle.CountsBuckets (h : HiHandle δ) (keys : List Key) : Prop :=
  ∀ b < h.tableSize.toNat, (h.bucketSize.cells[b]?).map UInt32.toNat =
    some (keys.countP fun k => h.toUserSettings.bucket k = b)

/-! ## Linked tables -/

theorem Table.countP_keys {u : UserSettings} (ht : Table u bs) {b : Nat} {l : List (Stored δ)}
    (hb : bs[b]? = some l) :
    ((bs.flatten.map Stored.key).countP fun k => u.bucket k = b) = l.length := by
  rw [List.countP_map, ← (ht.filter_flatten hb).length_eq, ← List.countP_eq_length_filter]
  rfl

theorem Fits.of_flatten (hlen : bs.flatten.length < 2 ^ 32) : Fits bs := by
  intro l hl
  exact Nat.lt_of_le_of_lt (List.sublist_flatten_of_mem hl).length_le hlen

namespace Stores

/-- The counters of the buckets are right unless one of them wrapped. -/
theorem countsBuckets_iff (hs : Stores h w bs) :
    h.CountsBuckets (bs.flatten.map Stored.key) ↔ Fits bs := by
  have hcell : ∀ {b : Nat} {l : List (Stored δ)}, bs[b]? = some l →
      (h.bucketSize.cells[b]?).map UInt32.toNat = some (l.length % 2 ^ 32) := by
    intro b l hb
    rw [hs.sizes, List.getElem?_map, hb]
    simp
  constructor
  · intro hc l hl
    obtain ⟨b, hb⟩ := List.getElem?_of_mem hl
    obtain ⟨hlt, -⟩ := List.getElem?_eq_some_iff.mp hb
    have hcount := hc b (hs.table.length ▸ hlt)
    rw [hcell hb, hs.table.countP_keys hb, Option.some.injEq] at hcount
    rw [← hcount]
    exact Nat.mod_lt _ (by decide)
  · intro hfit b hlt
    rw [← hs.table.length] at hlt
    have hb := List.getElem?_eq_getElem hlt
    rw [hcell hb, hs.table.countP_keys hb, Nat.mod_eq_of_lt (hfit _ (List.getElem_mem hlt))]

theorem sumsUp_iff (hs : Stores h w bs) (hfit : Fits bs) :
    h.SumsUp ↔ bs.flatten.length < 2 ^ 32 := by
  have hsum : (h.bucketSize.cells.map UInt32.toNat).sum = bs.flatten.length := by
    rw [hs.sizes, List.map_map, List.length_flatten]
    refine congrArg List.sum (List.map_congr_left fun l hl => ?_)
    rw [Function.comp_apply, UInt32.toNat_ofNat', Nat.mod_eq_of_lt (hfit l hl)]
  rw [HiHandle.SumsUp, hsum, hs.count, UInt32.toNat_ofNat']
  constructor
  · intro he
    rw [he]
    exact Nat.mod_lt _ (by decide)
  · exact fun hlt => (Nat.mod_eq_of_lt hlt).symm

theorem counts_iff (hs : Stores h w bs) :
    (h.CountsBuckets (bs.flatten.map Stored.key) ∧ h.SumsUp) ↔ bs.flatten.length < 2 ^ 32 := by
  constructor
  · rintro ⟨hc, hsum⟩
    exact (hs.sumsUp_iff (hs.countsBuckets_iff.mp hc)).mp hsum
  · intro hlt
    have hfit := Fits.of_flatten hlt
    exact ⟨hs.countsBuckets_iff.mpr hfit, (hs.sumsUp_iff hfit).mpr hlt⟩

end Stores

/-! ## Array tables -/

theorem growBucket_keeps {b : Nat} : Partial (h.growBucket b) w fun r _ =>
    r.1.bucketSize = h.bucketSize ∧ r.1.noObjects = h.noObjects := by
  unfold HiHandle.growBucket
  refine Runs.bind (Q := fun _ _ => True) partial_trivial fun slotSize w₁ _ _ => ?_
  refine Runs.bind (Q := fun _ _ => True) partial_trivial fun slotMax w₂ _ _ => ?_
  refine runs_ite.mpr ⟨fun _ => ?_, fun _ => ⟨rfl, rfl⟩⟩
  refine Runs.bind (Q := fun _ _ => True) partial_trivial fun slotMaxs w₃ _ _ => ?_
  refine Runs.bind (Q := fun _ _ => True) partial_trivial fun slots w₄ _ _ => ?_
  refine Runs.bind (Q := fun _ _ => True) partial_trivial fun grown w₅ _ _ => ?_
  cases grown with
  | none => exact Runs.bind (Q := fun _ _ => True) partial_trivial fun _ _ _ _ => ⟨rfl, rfl⟩
  | some slots => exact Runs.bind (Q := fun _ _ => True) partial_trivial fun _ _ _ _ => ⟨rfl, rfl⟩

theorem setSlot_keeps {b i : Nat} {slot : HiBucketAObj δ} : Partial (h.setSlot b i slot) w fun r _ =>
    r.bucketSize = h.bucketSize ∧ r.noObjects = h.noObjects := by
  unfold HiHandle.setSlot
  refine Runs.bind (Q := fun _ _ => True) partial_trivial fun slots w₁ _ _ => ?_
  refine Runs.bind (Q := fun _ _ => True) partial_trivial fun slots w₂ _ _ => ?_
  exact Runs.bind (Q := fun _ _ => True) partial_trivial fun _ _ _ _ => ⟨rfl, rfl⟩

/-- An array table counts a new entry in `no_objects` only. -/
theorem runs_lhiInsertArray_counters {key : Bytes} {keylen : UInt32} {d : δ} :
    Partial (lhiInsertArray h key keylen d) w fun r _ => r.1 = success →
      r.2.bucketSize = h.bucketSize ∧ r.2.noObjects = h.noObjects + 1 := by
  unfold lhiInsertArray
  refine Runs.bind (Q := fun _ _ => True) partial_trivial fun bucket w₁ _ _ => ?_
  refine Runs.bind (Q := fun _ _ => True) partial_trivial fun found w₂ _ _ => ?_
  refine runs_ite.mpr ⟨fun _ he => absurd (show hiErrDupkey = success from he) (by decide), fun _ => ?_⟩
  refine Runs.bind (Q := fun _ _ => True) partial_trivial fun _ w₃ _ _ => ?_
  refine Runs.bind growBucket_keeps ?_
  rintro ⟨h₁, grown⟩ w₄ - ⟨hsize₁, hobj₁⟩
  dsimp only at hsize₁ hobj₁ ⊢
  refine runs_ite.mpr ⟨fun _ => ?_, fun _ => ?_⟩
  · refine Runs.bind (Q := fun _ _ => True) partial_trivial fun _ _ _ _ he => ?_
    exact absurd (show hiErrSystem = success from he) (by decide)
  refine Runs.bind (Q := fun _ _ => True) partial_trivial fun slotMax w₅ _ _ => ?_
  refine Runs.bind (Q := fun _ _ => True) partial_trivial fun free w₆ _ _ => ?_
  cases free with
  | none =>
    refine Runs.bind (Q := fun _ _ => True) partial_trivial fun _ _ _ _ he => ?_
    exact absurd (show hiErrInternal = success from he) (by decide)
  | some i =>
    refine Runs.bind (Q := fun _ _ => True) partial_trivial fun dupkey w₇ _ _ => ?_
    cases dupkey with
    | error ret => exact fun he => absurd (show hiErrSystem = success from he) (by decide)
    | ok dupkey =>
      refine Runs.bind (Q := fun _ _ => True) partial_trivial fun key w₈ _ _ => ?_
      refine Runs.bind setSlot_keeps fun h₂ w₉ _ h₂' => ?_
      refine Runs.bind (Q := fun _ _ => True) partial_trivial fun slotSize w₁₀ _ _ => ?_
      refine Runs.bind (Q := fun _ _ => True) partial_trivial fun slotSizes w₁₁ _ _ => ?_
      refine Runs.bind (Q := fun _ _ => True) partial_trivial fun _ w₁₂ _ _ _ => ?_
      exact ⟨h₂'.1.trans hsize₁, by rw [h₂'.2, hobj₁]⟩

/-- The sum of `bucket_size` cannot be right before and after an insertion. -/
theorem lhiInsertArray_miscounts {key : Bytes} {keylen : UInt32} {d : δ} (hsum : h.SumsUp) :
    Partial (lhiInsertArray h key keylen d) w fun r _ => r.1 = success → ¬ r.2.SumsUp := by
  refine runs_lhiInsertArray_counters.imp fun r _ hr hret hsum' => ?_
  obtain ⟨hsize, hobj⟩ := hr hret
  rw [HiHandle.SumsUp, hsize, hsum, hobj, UInt32.toNat_inj] at hsum'
  simp at hsum'

/-! ## Sessions -/

/-- In a linked table that a session reaches, the counters are right as long as there are fewer than
`2 ^ 32` entries, and wrong from there on. -/
theorem bucket_sizes_count_iff {s : HiInitSet} {u : UserSettings} (hs : lhiSetSanityCheck s = .ok u)
    (he : plainEngine u.collEng) (hr : Reached s h w) :
    ∃ bs, Stores h w bs ∧
      ((h.CountsBuckets (bs.flatten.map Stored.key) ∧ h.SumsUp) ↔ bs.flatten.length < 2 ^ 32) := by
  obtain ⟨-, -, bs, hst⟩ := hr.stores hs he
  exact ⟨bs, hst, hst.counts_iff⟩

/-- Two entries in one bucket. -/
theorem bucket_sizes_count_iff_two :
    ∃ (h : HiHandle String) (w : World), Reached oneList h w ∧ h.noObjects = 2 ∧ ∃ bs, Stores h w bs ∧
      bs.flatten.length = 2 ∧ h.CountsBuckets (bs.flatten.map Stored.key) ∧ h.SumsUp := by
  obtain ⟨h, w₁, rs, h', w₂, hcreate, hcalls, hcount, hcells, hreq⟩ :
      ∃ (h : HiHandle String) (w₁ : World) (rs : _) (h' : HiHandle String) (w₂ : World),
        (hiCreate oneList).run (World.start fun _ _ => 0) = .ok (.ok h, w₁) ∧
        (Prog.calls TableOp.call [.map (.insert ⟨[1, 0], by decide⟩ "one"),
          .map (.insert ⟨[2, 0], by decide⟩ "two")] h).run w₁ = .ok ((rs, h'), w₂) ∧
        h'.noObjects = 2 ∧ h'.bucketSize.cells = [2] ∧ w₂.requests < 2 ^ 32 := by
    refine ⟨_, _, _, _, _, rfl, rfl, rfl, rfl, ?_⟩
    decide
  have hreach : Reached oneList h' w₂ := ⟨World.start fun _ _ => 0, h, w₁, _, rs, hcreate,
    Meets.of_forall fun _ _ _ _ => trivial, hcalls⟩
  obtain ⟨bs, hst, hiff⟩ := bucket_sizes_count_iff (s := oneList) rfl (.inl (.inl rfl)) hreach
  -- The only bucket has two entries, because there were too few requests for its counter to wrap.
  obtain ⟨l, hl, hlen⟩ := List.map_eq_singleton_iff.mp (hst.sizes.symm.trans hcells)
  have hlt : l.length < 2 ^ 32 := Nat.lt_of_le_of_lt (hst.length_le (by simp [hl])) hreq
  have htwo : bs.flatten.length = 2 := by
    rw [hl, List.flatten_singleton, ← Nat.mod_eq_of_lt hlt, ← UInt32.toNat_ofNat', hlen]
    rfl
  exact ⟨h', w₂, hreach, hcount, bs, hst, htwo, hiff.mpr (by omega)⟩

/-- One entry in an array table, and `bucket_size` is still the word that `malloc` left there. -/
theorem array_bucket_size_unwritten :
    ∃ h w₁ rs h' w₂, (hiCreate (oneArray 2)).run (World.start fun _ _ => 7) = .ok (.ok h, w₁) ∧
      (Prog.calls TableOp.call [.map (.insert ⟨[1, 0], by decide⟩ "one")] h).run w₁ =
        .ok ((rs, h'), w₂) ∧
      rs.map Result.status = [success] ∧ h'.slotItems.map Item.data = ["one"] ∧
      h'.bucketSize.cells = [7] ∧ ¬ h'.CountsBuckets [⟨[1, 0], by decide⟩] ∧ ¬ h'.SumsUp := by
  obtain ⟨h, w₁, rs, h', w₂, hcreate, hcalls, hrs, hitems, hcells, hsize, hobj⟩ :
      ∃ h w₁ rs h' w₂, (hiCreate (oneArray 2)).run (World.start fun _ _ => 7) = .ok (.ok h, w₁) ∧
        (Prog.calls TableOp.call [.map (.insert ⟨[1, 0], by decide⟩ "one")] h).run w₁ =
          .ok ((rs, h'), w₂) ∧
        rs.map Result.status = [success] ∧ h'.slotItems.map Item.data = ["one"] ∧
        h'.bucketSize.cells = [7] ∧ h'.tableSize = 1 ∧ h'.noObjects = 1 :=
    ⟨_, _, _, _, _, rfl, rfl, rfl, rfl, rfl, rfl, rfl⟩
  refine ⟨h, w₁, rs, h', w₂, hcreate, hcalls, hrs, hitems, hcells, fun hc => ?_, fun hsum => ?_⟩
  · have hcount := hc 0 (by rw [hsize]; decide)
    rw [hcells] at hcount
    have hle := (Option.some.inj hcount).trans_le List.countP_le_length
    exact absurd hle (by decide)
  · rw [HiHandle.SumsUp, hcells, hobj] at hsum
    exact absurd hsum (by decide)

end Hashish
