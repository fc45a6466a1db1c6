import Hashish.ArrayIteration
import Hashish.ArrayCorrectness
import Hashish.FullIteration
import Hashish.Upkeep

/-!
# Iterating over array tables with holes

* `arrayUpkeep`: the calls on a table of `COLL_ENG_ARRAY` keep its buckets laid out, unless
  an insertion loses a bucket.
* `array_iterates_iff_packed`: a full iteration returns every stored entry once exactly when
  every bucket is packed.
* `array_iteration_reads_unwritten`: a removal leaves a hole, and the iteration fails.
-/

namespace Hashish

open Hashish.Lib

variable {δ : Type} {F : Fault → Prop} {w : World} {h : HiHandle δ}
  {bs : List (List (Option (Stored δ)))} {l : List (Option (Stored δ))} {b : Nat} {k : Key}

/-! ## Calls -/

/-- `hi_get` finds the key. -/
def HiHandle.Has (h : HiHandle δ) (w : World) (k : Key) : Prop :=
  ∃ r w', (hiGet h k.bytes k.keylen).run w = .ok (r, w') ∧ r.1.status = success

/-- The bucket of the key has a slot left. -/
def HiHandle.HasRoom (h : HiHandle δ) (k : Key) : Prop :=
  ∃ n m, h.bucketArraySlotSize.cells[h.toUserSettings.bucket k]? = some n ∧
    h.bucketArraySlotMax.cells[h.toUserSettings.bucket k]? = some m ∧ n < m

theorem ArrayRep.hasRoom_iff (hr : ArrayRep h bs) (hb : bs[h.toUserSettings.bucket k]? = some l) :
    h.HasRoom k ↔ none ∈ l := by
  have hsize := hr.size_of_bucket hb
  have hmax := hr.max_of_bucket hb
  have hlt : UInt32.ofNat l.reduceOption.length < UInt32.ofNat l.length ↔ none ∈ l := by
    rw [UInt32.lt_iff_toNat_lt, hr.toNat_size hb, hr.toNat_max hb, List.reduceOption_length_lt_iff]
  constructor
  · rintro ⟨n, m, hn, hm, hnm⟩
    cases hn.symm.trans hsize
    cases hm.symm.trans hmax
    exact hlt.mp hnm
  · exact fun hfree => ⟨_, _, hsize, hmax, hlt.mpr hfree⟩

/-- An insertion into the bucket of the key does not lose the bucket: there is room, or the next
request is answered with a block. -/
def Grows (h : HiHandle δ) (w : World) (k : Key) : Prop :=
  h.HasRoom k ∨ ∃ junk, w.replies w.requests = .block junk

theorem World.Refused.not_block {w' : World} (hs : w.Refused 0 w')
    (hb : ∃ junk, w.replies w.requests = .block junk) : False := by
  obtain ⟨e, he⟩ := hs.fails
  obtain ⟨junk, hj⟩ := hb
  exact Reply.noConfusion (he.symm.trans hj)

/-- Twice the slots of the bucket can be counted. -/
def HiHandle.CanDoubleSlots (h : HiHandle δ) (k : Key) : Prop :=
  ∃ m, h.bucketArraySlotMax.cells[h.toUserSettings.bucket k]? = some m ∧ m.toNat < 2 ^ 31

theorem ArrayRep.canDoubleSlots_iff (hr : ArrayRep h bs)
    (hb : bs[h.toUserSettings.bucket k]? = some l) : h.CanDoubleSlots k ↔ l.length < 2 ^ 31 := by
  rw [← hr.toNat_max hb, HiHandle.CanDoubleSlots, hr.max_of_bucket hb]
  simp

/-- A failed insertion leaves the buckets laid out. -/
def ArrayKept (h : HiHandle δ) (w : World) (k : Key) (ret : Int) : Prop :=
  (ret ≠ hiErrInternal ∨ h.HasRoom k ∨ h.CanDoubleSlots k) ∧ Grows h w k

/-- Calls keep the buckets laid out, unless an insertion loses a bucket or reports an internal
error. -/
theorem arrayUpkeep :
    Upkeep (fun u => u.collEng = .array ∧ u.collEngArraySize ≠ 0)
      (fun (h : HiHandle δ) _ => ∃ bs, ArrayRep h bs) ArrayKept where
  engines {u} he := by
    rw [he.1]
    decide
  resize _ _ he := he
  mono hr _ := hr
  relabel := by
    rintro h w a p ⟨bs, hr⟩
    exact ⟨bs, { hr with table := ⟨hr.table.length, hr.table.placed⟩ }⟩
  get := by
    rintro h w k he hu ⟨bs, hr⟩
    unfold hiGet
    rw [he.1]
    exact runs_bind.mpr (Runs.imp partial_trivial fun _ _ _ => ⟨rfl, bs, hr⟩)
  remove := by
    rintro h w k he hu ⟨bs, hr⟩
    obtain ⟨l, hb⟩ := hr.exists_bucket hu k
    unfold hiRemove
    rw [he.1]
    refine hr.runs_lhiRemoveArray he.1 hu hb (fun _ w' _ _ => ⟨rfl, bs, hr⟩) ?_
    exact fun _ _ _ h' w' _ _ hr' hu' _ _ => ⟨hu', _, hr'⟩
  insert := by
    rintro h w k d he hu ⟨bs, hr⟩
    obtain ⟨l, hb⟩ := hr.exists_bucket hu k
    unfold engineInsert
    rw [he.1]
    refine hr.runs_lhiInsertArray he.1 hu hb ?_ ?_ ?_ ?_ ?_
    · exact fun _ _ _ _ => ⟨rfl, fun _ => ⟨bs, hr⟩⟩
    · intro _ hno w' _ hs
      refine ⟨rfl, fun hok => ?_⟩
      rcases hok with hok | ⟨-, hroom | hblock⟩
      · exact absurd (show hiErrSystem = success from hok) (by decide)
      · exact (hno ((hr.hasRoom_iff hb).mp hroom)).elim
      · exact (hs.not_block hblock).elim
    · intro _ hno hwrap h' w' _ _ hu'
      refine ⟨hu', fun hok => ?_⟩
      rcases hok with hok | ⟨hok | hroom | hdouble, -⟩
      · exact absurd (show hiErrInternal = success from hok) (by decide)
      · exact (hok rfl).elim
      · exact (hno ((hr.hasRoom_iff hb).mp hroom)).elim
      · exact (Nat.not_lt.mpr hwrap ((hr.canDoubleSlots_iff hb).mp hdouble)).elim
    · exact fun _ _ _ _ _ _ _ hu' _ hr' => ⟨hu', fun _ => ⟨_, hr'⟩⟩
    · exact fun _ _ _ _ _ _ _ _ _ _ _ _ hu' hr' _ => ⟨hu', fun _ => ⟨_, hr'⟩⟩
  create he := by
    rw [ArrayRep.createEng_array he.1]
    refine ArrayRep.runs_lhiCreateEngArray he.2 (fun _ _ _ => .inl ⟨_, rfl⟩) ?_
    exact fun h' w' _ hu hr _ => .inr ⟨h', rfl, hu, _, hr⟩
  snapshots := by
    rintro h w he ⟨bs, hr⟩
    refine ⟨_, _, _, _, bs, hr.iterable he.1 fun _ => trivial, ?_⟩
    rintro l s ⟨-, rfl, hlt⟩
    have := l.reduceOption_length_le
    omega

/-! ## What the slots hold -/

/-- The entry of an allocated slot, as `hi_iterator_getnext` returns it. -/
def HiBucketAObj.item? (slot : HiBucketAObj δ) : Option (Item δ) :=
  match slot with
  | ⟨some e, some .baAllocated⟩ => some ⟨e.data, e.key, e.keyLen⟩
  | _ => none

/-- The stored entries of a bucket. -/
def bucketItems (blk : Block (HiBucketAObj δ)) : List (Item δ) := blk.cells.filterMap HiBucketAObj.item?

/-- All stored entries. -/
def HiHandle.slotItems (h : HiHandle δ) : List (Item δ) :=
  (h.bucketArray.cells.map bucketItems).flatten

/-- The first `slot_size` slots of every bucket are allocated. -/
def HiHandle.SlotsPacked (h : HiHandle δ) : Prop :=
  ∀ (b : Nat) (blk : Block (HiBucketAObj δ)) (n : UInt32), h.bucketArray.cells[b]? = some blk →
    h.bucketArraySlotSize.cells[b]? = some n →
    ∀ slot ∈ blk.cells.take n.toNat, slot.allocation = some .baAllocated

theorem SlotShows.item?_eq {slot : HiBucketAObj δ} {x : Option (Stored δ)} (hs : SlotShows slot x) :
    slot.item? = x.map Stored.item := by
  cases x with
  | none =>
    obtain ⟨e, a⟩ := slot
    obtain rfl : a = some .baNotAllocated := hs
    cases e <;> rfl
  | some x =>
    rw [show slot = ⟨some x.entry, some .baAllocated⟩ from hs]
    rfl

theorem SlotsShow.forall₂ {blk : Block (HiBucketAObj δ)} (hs : SlotsShow blk l) :
    List.Forall₂ SlotShows blk.cells l := by
  refine List.forall₂_iff_get.mpr ⟨hs.length, fun i hi hi' => ?_⟩
  obtain ⟨slot, hslot, hx⟩ := hs.shows i _ (List.getElem?_eq_getElem hi')
  rw [List.getElem?_eq_getElem hi] at hslot
  cases hslot
  exact hx

theorem filterMap_item?_eq {cells : List (HiBucketAObj δ)} (hall : List.Forall₂ SlotShows cells l) :
    cells.filterMap HiBucketAObj.item? = l.reduceOption.map Stored.item := by
  induction hall with
  | nil => rfl
  | @cons slot x cells l hx hall ih =>
    rw [List.filterMap_cons, hx.item?_eq]
    cases x with
    | none => simpa using ih
    | some x => simpa using ih

theorem allocated_iff {cells : List (HiBucketAObj δ)} (hall : List.Forall₂ SlotShows cells l) :
    (∀ slot ∈ cells, slot.allocation = some .baAllocated) ↔ none ∉ l := by
  induction hall with
  | nil => simp
  | @cons slot x cells l hx hall ih =>
    have hslot := hx.allocated
    rw [List.forall_mem_cons, List.mem_cons, not_or, ih]
    refine and_congr_left fun _ => ?_
    cases x with
    | none => simpa using hslot
    | some x => simpa using hslot

theorem SlotsShow.bucketItems_eq {blk : Block (HiBucketAObj δ)} (hs : SlotsShow blk l) :
    bucketItems blk = l.reduceOption.map Stored.item :=
  filterMap_item?_eq hs.forall₂

theorem ArrayRep.slotItems_eq (hr : ArrayRep h bs) :
    h.slotItems = (arrayContents bs).flatten.map Stored.item := by
  have hmap : h.bucketArray.cells.map bucketItems =
      (arrayContents bs).map (·.map Stored.item) := by
    refine List.ext_getElem? fun i => ?_
    rw [arrayContents, List.map_map, List.getElem?_map, List.getElem?_map]
    by_cases hi : i < bs.length
    · obtain ⟨blk, hblk, hs⟩ := hr.slots i _ (List.getElem?_eq_getElem hi)
      rw [hblk, List.getElem?_eq_getElem hi, Option.map_some, Option.map_some, hs.bucketItems_eq]
      rfl
    · rw [List.getElem?_eq_none (Nat.not_lt.mp hi),
        List.getElem?_eq_none (hr.arrayLength ▸ Nat.not_lt.mp hi)]
      rfl
  rw [HiHandle.slotItems, hmap, List.map_flatten]

theorem SlotsShow.packed_iff {blk : Block (HiBucketAObj δ)} (hs : SlotsShow blk l) :
    (∀ slot ∈ blk.cells.take l.reduceOption.length, slot.allocation = some .baAllocated) ↔
      Packed l :=
  allocated_iff (List.forall₂_take _ hs.forall₂)

theorem ArrayRep.slotsPacked_iff (hr : ArrayRep h bs) : h.SlotsPacked ↔ ∀ l ∈ bs, Packed l := by
  constructor
  · intro hp l hl
    obtain ⟨b, hb⟩ := List.getElem?_of_mem hl
    obtain ⟨blk, hblk, hs⟩ := hr.slots b l hb
    have := hp b blk _ hblk (hr.size_of_bucket hb)
    rw [hr.toNat_size hb] at this
    exact hs.packed_iff.mp this
  · intro hp b blk n hblk hn
    have hlt : b < bs.length := hr.arrayLength ▸ (List.getElem?_eq_some_iff.mp hblk).1
    have hb := List.getElem?_eq_getElem hlt
    obtain ⟨blk', hblk', hs⟩ := hr.slots b _ hb
    cases hblk.symm.trans hblk'
    cases hn.symm.trans (hr.size_of_bucket hb)
    rw [hr.toNat_size hb]
    exact hs.packed_iff.mpr (hp _ (List.mem_of_getElem? hb))

/-! ## Full iterations -/

/-- The snapshot of a bucket holds its stored entries, every index being written. -/
def HiHandle.CopiesBucket (h : HiHandle δ) (w : World) (b : Nat) : Prop :=
  ∀ a, Total (lhiArrayBucketToArray h b a) w fun r _ => ∃ blk, h.bucketArray.cells[b]? = some blk ∧
    ((r = (hiErrNodata, a) ∧ bucketItems blk = []) ∨
      (r.1 = 0 ∧ r.2.nmemb = (bucketItems blk).length ∧
        r.2.data.cells = (bucketItems blk).map (some ·.data) ∧
        r.2.keys.cells = (bucketItems blk).map (some ·.key) ∧
        r.2.keysLength.cells = (bucketItems blk).map (some ·.keylen)))

/-- A full iteration returns every stored entry once and nothing else. -/
def HiHandle.FullIteration (h : HiHandle δ) (w : World) : Prop :=
  Total (iterate h (h.slotItems.length + 1)) w fun r _ => r.1.Perm h.slotItems ∧ r.2 = hiErrNodata

theorem ArrayRep.copiesBucket (hr : ArrayRep h bs) (hw : w.AllocsSucceed) (hb : bs[b]? = some l)
    (hp : Packed l) : h.CopiesBucket w b := by
  obtain ⟨blk, hblk, hs⟩ := hr.slots b l hb
  intro a
  refine hr.runs_lhiArrayBucketToArray hb (fun hnil w' _ => ⟨blk, hblk, .inl ⟨rfl, ?_⟩⟩)
    (fun _ _ hfail => (hfail hw).elim) (fun _ _ a' w' _ hn ha => ⟨blk, hblk, .inr ⟨rfl, ?_⟩⟩)
    fun _ hholes => (hholes hp).elim
  · rw [hs.bucketItems_eq, hnil]
    rfl
  · rw [hs.bucketItems_eq, List.length_map, ha.data, ha.keys, ha.keysLength]
    simp [hn, Function.comp_def]

theorem arrayContents_sum (bs : List (List (Option (Stored δ)))) :
    (bs.map fun l => l.reduceOption.length).sum = (arrayContents bs).flatten.length := by
  rw [List.length_flatten, arrayContents, List.map_map]
  rfl

/-- The snapshots of packed buckets are their contents. -/
theorem snapshots_eq {ss : List (List (Stored δ))} (hss : List.Forall₂ ArrayRep.PackedSnap bs ss) :
    ss = arrayContents bs ∧ ∀ l ∈ bs, Packed l := by
  induction hss with
  | nil => exact ⟨rfl, nofun⟩
  | cons hs _ ih =>
    obtain ⟨hp, rfl, -⟩ := hs
    exact ⟨by rw [ih.1, arrayContents, arrayContents, List.map_cons],
      List.forall_mem_cons.mpr ⟨hp, ih.2⟩⟩

/-- Only unwritten cells can end a full iteration, and only when some bucket is not packed. -/
theorem ArrayRep.runs_iterate (hr : ArrayRep h bs) (he : h.collEng = .array)
    (hw : w.AllocsSucceed) (hF : (∃ l ∈ bs, ¬ Packed l) → F .uninitialised) :
    Runs F (iterate h (h.slotItems.length + 1)) w fun r _ =>
      (∀ l ∈ bs, Packed l) ∧ r.1.Perm h.slotItems ∧ r.2 = hiErrNodata := by
  have ht := hr.iterable (w := w) he hF
  have hlen : bs.length < 2 ^ 64 := by
    have := ht.length
    have := h.tableSize.toNat_lt
    omega
  have hP : ∀ l s, PackedSnap (δ := δ) l s → s.length < 2 ^ 64 ∧ s.length ≤ l.reduceOption.length := by
    rintro l s ⟨-, rfl, hlt⟩
    have := l.reduceOption_length_le
    omega
  refine (ht.runs_iterate hw hlen hP ?_).imp ?_
  · rw [hr.slotItems_eq, List.length_map, arrayContents_sum]
    exact Nat.lt_succ_self _
  · rintro ⟨items, ret⟩ w' ⟨hret, done, hitems, ss, hss, rfl⟩
    obtain ⟨rfl, hp⟩ := snapshots_eq hss
    refine ⟨hp, ?_, hret⟩
    rw [show items = _ from hitems, hr.slotItems_eq]
    exact (handedOut_perm _).map _

/-- No call of the run reports an internal error, and no allocation fails. -/
def Sound (h : HiHandle δ) (w : World) (op : TableOp δ) : Prop :=
  w.AllocsSucceed ∧ ∀ r w', (op.call h).run w = .ok (r, w') → r.1.status ≠ hiErrInternal

theorem Sound.keptBy (h : HiHandle δ) (w : World) (op : TableOp δ) (r : Result δ × HiHandle δ)
    (w' : World) (hok : Sound h w op) (hrun : (op.call h).run w = .ok (r, w')) :
    Upkeep.KeptBy ArrayKept h w op r.1.status := by
  cases op with
  | rehash n => trivial
  | map op =>
    cases op with
    | insert k d =>
      exact .inr (.inr fun h' w'' hw' => ⟨.inl (hok.2 r w' hrun), .inr ((hok.1.mono hw') _)⟩)
    | get k => trivial
    | remove k => trivial

theorem lhiSetSanityCheck_slots {s : HiInitSet} {u : UserSettings} (hs : lhiSetSanityCheck s = .ok u)
    (he : u.collEng = .array) : u.collEngArraySize ≠ 0 := by
  obtain ⟨-, -, heng, -, hslots, -⟩ := lhiSetSanityCheck_ok hs
  intro h₀
  unfold lhiSetSanityCheck at hs
  rw [← heng, he] at hs
  rw [hslots] at h₀
  simp only [lhiSetSanityArray, h₀, if_true] at hs
  split at hs
  · cases hs
  · split at hs <;> cases hs

/-- A full iteration over an array table returns every stored entry once, and the snapshot of each
bucket holds its entries, exactly when every bucket is packed. -/
theorem array_iterates_iff_packed {s : HiInitSet} {u : UserSettings}
    (hs : lhiSetSanityCheck s = .ok u) (he : u.collEng = .array) (hr : ReachedBy Sound s h w)
    (hw : w.AllocsSucceed) :
    (h.FullIteration w ∧ ∀ b < h.tableSize.toNat, h.CopiesBucket w b) ↔ h.SlotsPacked := by
  have hslots : u.collEngArraySize ≠ 0 := lhiSetSanityCheck_slots hs he
  obtain ⟨hset, -, bs, hrep⟩ := arrayUpkeep.reached hs ⟨he, hslots⟩
    (fun h w op r w' _ => Sound.keptBy h w op r w') hr
  have he' : h.collEng = .array := (congrArg UserSettings.collEng hset :).trans he
  rw [hrep.slotsPacked_iff]
  constructor
  · rintro ⟨hfull, -⟩
    have hruns := hrep.runs_iterate he' hw (F := (· = .uninitialised)) fun _ => rfl
    obtain ⟨r, w', hrun, -⟩ := total_iff.mp hfull
    exact (hruns.of_run hrun).1
  · intro hp
    refine ⟨(hrep.runs_iterate he' hw ?_).imp fun _ _ h' => h'.2, fun b hb => ?_⟩
    · rintro ⟨l, hl, hholes⟩
      exact hholes (hp l hl)
    · have hlen := (hrep.iterable (F := fun _ => True) (w := w) he' fun _ => trivial).length
      have hbs := List.getElem?_eq_getElem (hlen.symm ▸ hb)
      exact hrep.copiesBucket hw hbs (hp _ (List.mem_of_getElem? hbs))

/-- A table of one bucket, which was doubled for the second of its two entries: it is packed, and the
iteration returns both. -/
theorem array_iterates_iff_packed_two :
    ∃ (h : HiHandle String) (w : World), ReachedBy Sound (oneArray 1) h w ∧
      h.slotItems.map Item.data = ["one", "two"] ∧ h.FullIteration w := by
  obtain ⟨h, w₁, rs, h', w₂, hcreate, hmet, hcalls, hreplies, hitems, hslots, hsizes⟩ :
      ∃ (h : HiHandle String) (w₁ : World) (rs : _) (h' : HiHandle String) (w₂ : World),
        (hiCreate (oneArray 1)).run (World.start fun _ _ => 0) = .ok (.ok h, w₁) ∧
        Prog.met TableOp.call Machine.any (fun _ h w op => match (op.call h).run w with
            | .ok (r, _) => r.1.status ≠ hiErrInternal
            | .error _ => true)
          [.map (.insert ⟨[1, 0], by decide⟩ "one"), .map (.insert ⟨[2, 0], by decide⟩ "two")]
          () h w₁ = true ∧
        (Prog.calls TableOp.call [.map (.insert ⟨[1, 0], by decide⟩ "one"),
          .map (.insert ⟨[2, 0], by decide⟩ "two")] h).run w₁ = .ok ((rs, h'), w₂) ∧
        w₁.replies = (World.start fun _ _ => 0).replies ∧
        h'.slotItems.map Item.data = ["one", "two"] ∧
        h'.bucketArray.cells.map (·.cells.map HiBucketAObj.allocation) =
          [[some .baAllocated, some .baAllocated]] ∧
        h'.bucketArraySlotSize.cells = [2] :=
    ⟨_, _, _, _, _, rfl, rfl, rfl, rfl, rfl, rfl, rfl⟩
  have hw₁ : w₁.AllocsSucceed := fun n => ⟨fun _ => 0, by rw [hreplies]; rfl⟩
  have hreach : ReachedBy Sound (oneArray 1) h' w₂ := by
    refine ⟨World.start fun _ _ => 0, h, w₁, _, rs, hcreate,
      .of_met (fun _ h w op hw hok => ⟨hw₁.mono hw, fun r w' hr => ?_⟩) hmet, hcalls⟩
    simp only [hr] at hok
    exact of_decide_eq_true hok
  have hw₂ : w₂.AllocsSucceed := hw₁.mono (Prog.grows _ hcalls)
  refine ⟨h', w₂, hreach, hitems, ((array_iterates_iff_packed (s := oneArray 1) rfl rfl hreach
    hw₂).mpr fun b blk n hblk hn slot hslot => ?_).1⟩
  have hmem : blk.cells.map HiBucketAObj.allocation ∈
      h'.bucketArray.cells.map (·.cells.map HiBucketAObj.allocation) :=
    List.mem_map_of_mem (List.mem_of_getElem? hblk)
  rw [hslots, List.mem_singleton] at hmem
  have hslot' : slot.allocation ∈ blk.cells.map HiBucketAObj.allocation :=
    List.mem_map_of_mem (List.mem_of_mem_take hslot)
  rw [hmem] at hslot'
  simpa using hslot'

/-- Two insertions and a removal leave a hole before the second entry, and the iteration reads a cell
that was not written. -/
theorem array_iteration_reads_unwritten :
    ∃ h w₁ rs h' w₂, (hiCreate (oneArray 2)).run (World.start fun _ _ => 0) = .ok (.ok h, w₁) ∧
      (Prog.calls TableOp.call [.map (.insert ⟨[1, 0], by decide⟩ "one"),
        .map (.insert ⟨[2, 0], by decide⟩ "two"), .map (.remove ⟨[1, 0], by decide⟩)] h).run w₁ =
        .ok ((rs, h'), w₂) ∧
      rs.map Result.status = [success, success, success] ∧ w₂.AllocsSucceed ∧
      h'.slotItems.map Item.data = ["two"] ∧
      (iterate h' (h'.slotItems.length + 1)).run w₂ = .error .uninitialised ∧
      ¬ h'.FullIteration w₂ := by
  obtain ⟨h, w₁, rs, h', w₂, hcreate, hcalls, hrs, hreplies, hitems, hiter⟩ :
      ∃ h w₁ rs h' w₂, (hiCreate (oneArray 2)).run (World.start fun _ _ => 0) = .ok (.ok h, w₁) ∧
        (Prog.calls TableOp.call [.map (.insert ⟨[1, 0], by decide⟩ "one"),
          .map (.insert ⟨[2, 0], by decide⟩ "two"), .map (.remove ⟨[1, 0], by decide⟩)] h).run w₁ =
          .ok ((rs, h'), w₂) ∧
        rs.map Result.status = [success, success, success] ∧
        w₂.replies = (World.start fun _ _ => 0).replies ∧ h'.slotItems.map Item.data = ["two"] ∧
        (iterate h' (h'.slotItems.length + 1)).run w₂ = .error .uninitialised := by
    refine ⟨_, _, _, _, _, rfl, rfl, rfl, ?_, rfl, ?_⟩
    · rfl
    · rfl
  refine ⟨h, w₁, rs, h', w₂, hcreate, hcalls, hrs, fun n => ⟨fun _ => 0, by rw [hreplies]; rfl⟩,
    hitems, hiter, fun hfull => ?_⟩
  obtain ⟨r, w', hrun, -⟩ := total_iff.mp hfull
  cases hiter.symm.trans hrun

end Hashish
