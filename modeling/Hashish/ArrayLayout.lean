import Hashish.Contents
import Hashish.Operations
import Mathlib.Data.List.ReduceOption

/-!
# Buckets of the array engine in memory

A bucket is a list of slots, each of them free (`none`) or holding a stored pair.
`ArrayRep h bs` says that the arrays of the handle `h` are laid out as the buckets
`bs`: `slot_size` counts the allocated slots of a bucket and `slot_max` all of them.

* `ArrayRep.runs_scanBucket`: the search loop, which stops when it has seen
  `slot_size` allocated slots, misses no key.
* `SlotsShow.runs_firstFree`: the first free slot.
-/

namespace Hashish

open Hashish.Lib

variable {δ : Type} {E : Fault → Prop} {w : World} {h : HiHandle δ}

/-- What a slot shows. -/
def SlotShows (slot : HiBucketAObj δ) (x : Option (Stored δ)) : Prop :=
  match x with
  | none => slot.allocation = some .baNotAllocated
  | some x => slot = ⟨some x.entry, some .baAllocated⟩

/-- The block of a bucket and its slots. -/
structure SlotsShow (blk : Block (HiBucketAObj δ)) (l : List (Option (Stored δ))) : Prop where
  addr : blk.addr ≠ none
  length : blk.cells.length = l.length
  shows : ∀ (i : Nat) (x : Option (Stored δ)), l[i]? = some x →
    ∃ slot, blk.cells[i]? = some slot ∧ SlotShows slot x

/-- The pairs of the buckets. -/
def arrayContents (bs : List (List (Option (Stored δ)))) : List (List (Stored δ)) :=
  bs.map List.reduceOption

/-- The blocks of the arrays of a handle, without the keys. -/
def arrayBlocks (h : HiHandle δ) : List Ptr :=
  h.bucketArray.cells.filterMap Block.addr ++ (h.bucketArray.addr.toList ++
    (h.bucketArraySlotSize.addr.toList ++ (h.bucketArraySlotMax.addr.toList ++ h.baseBlocks)))

/-- The blocks of the keys. -/
def keyBlocks (bs : List (List (Option (Stored δ)))) : List Ptr :=
  (arrayContents bs).flatten.map Stored.keyAddr

/-- The handle lays out the buckets `bs`. -/
structure ArrayRep (h : HiHandle δ) (bs : List (List (Option (Stored δ)))) : Prop where
  arrayAddr : h.bucketArray.addr ≠ none
  arrayLength : h.bucketArray.cells.length = bs.length
  slots : ∀ (b : Nat) (l : List (Option (Stored δ))), bs[b]? = some l →
    ∃ blk, h.bucketArray.cells[b]? = some blk ∧ SlotsShow blk l
  sizeAddr : h.bucketArraySlotSize.addr ≠ none
  sizes : h.bucketArraySlotSize.cells = bs.map fun l => UInt32.ofNat l.reduceOption.length
  maxAddr : h.bucketArraySlotMax.addr ≠ none
  maxs : h.bucketArraySlotMax.cells = bs.map fun l => UInt32.ofNat l.length
  count : h.noObjects = UInt32.ofNat (arrayContents bs).flatten.length
  table : Table h.toUserSettings (arrayContents bs)
  nonempty : ∀ l ∈ bs, l ≠ []
  fits : ∀ l ∈ bs, l.length < 2 ^ 32

/-! ## Slots -/

namespace SlotsShow

variable {blk : Block (HiBucketAObj δ)} {l : List (Option (Stored δ))}

theorem set (hb : SlotsShow blk l) {i : Nat} {slot : HiBucketAObj δ} {x : Option (Stored δ)}
    (hs : SlotShows slot x) : SlotsShow { blk with cells := blk.cells.set i slot } (l.set i x) := by
  refine ⟨hb.addr, by simpa using hb.length, fun j y hy => ?_⟩
  show ∃ slot', (blk.cells.set i slot)[j]? = some slot' ∧ SlotShows slot' y
  rw [List.getElem?_set] at hy ⊢
  by_cases hij : i = j
  · subst hij
    rw [if_pos rfl] at hy ⊢
    rw [hb.length]
    split at hy
    · cases hy
      exact ⟨slot, by rw [if_pos ‹_›], hs⟩
    · cases hy
  · rw [if_neg hij] at hy ⊢
    exact hb.shows j y hy

/-- The block after `realloc` to `n` slots and the loop that frees the new ones. -/
theorem resize (hb : SlotsShow blk l) (p : Ptr) (n : Nat) :
    SlotsShow ⟨some p, markFree (blk.cells.take n ++ List.replicate (n - blk.cells.length)
      ⟨none, none⟩) l.length n⟩ (l.take n ++ List.replicate (n - l.length) none) := by
  refine ⟨nofun, by simp [markFree, hb.length], fun i x hx => ?_⟩
  rw [markFree, List.getElem?_mapIdx]
  by_cases hi : i < (l.take n).length
  · rw [List.getElem?_append_left hi, List.getElem?_take] at hx
    rw [List.length_take] at hi
    rw [if_pos (Nat.lt_of_lt_of_le hi (Nat.min_le_left _ _))] at hx
    obtain ⟨slot, hslot, hs⟩ := hb.shows i x hx
    have hi' : i < (blk.cells.take n).length := by rwa [List.length_take, hb.length]
    rw [List.getElem?_append_left hi', List.getElem?_take,
      if_pos (Nat.lt_of_lt_of_le hi (Nat.min_le_left _ _)), hslot]
    refine ⟨slot, ?_, hs⟩
    rw [Option.map_some, if_neg fun h => Nat.not_lt.mpr h.1 (Nat.lt_of_lt_of_le hi
      (Nat.min_le_right _ _))]
  · rw [List.getElem?_append_right (Nat.not_lt.mp hi), List.getElem?_replicate] at hx
    rw [List.length_take] at hi hx
    split at hx
    · rename_i hlt
      cases hx
      have hi' : (blk.cells.take n).length ≤ i := by
        rw [List.length_take, hb.length]
        exact Nat.not_lt.mp hi
      rw [List.getElem?_append_right hi', List.length_take, hb.length,
        List.getElem?_replicate_of_lt hlt, Option.map_some, if_pos (by omega)]
      exact ⟨_, rfl, rfl⟩
    · cases hx

/-- Reading a slot. -/
theorem runs_slot (hb : SlotsShow blk l) (haddr : h.bucketArray.addr ≠ none) {b : Nat}
    (hblk : h.bucketArray.cells[b]? = some blk) {i : Nat} {x : Option (Stored δ)}
    (hx : l[i]? = some x) {Q : HiBucketAObj δ → World → Prop}
    (hQ : ∀ slot, SlotShows slot x → Q slot w) : Runs E (h.slot b i) w Q := by
  obtain ⟨slot, hslot, hs⟩ := hb.shows i x hx
  refine runs_bind.mpr (Block.runs_load haddr hblk ?_)
  exact Block.runs_load hb.addr hslot (hQ slot hs)

/-- Reading the state of a slot, and going on with the pair it holds. -/
theorem runs_written (hb : SlotsShow blk l) (haddr : h.bucketArray.addr ≠ none) {b : Nat}
    (hblk : h.bucketArray.cells[b]? = some blk) {i : Nat} {x : Option (Stored δ)}
    (hx : l[i]? = some x) {β : Type} {free : Prog β} {used : HiBucketAObj δ → Prog β}
    {Q : β → World → Prop} (hfree : x = none → Runs E free w Q)
    (hused : ∀ y, x = some y → Runs E (used ⟨some y.entry, some .baAllocated⟩) w Q) :
    Runs E (do
      let slot ← h.slot b i
      match ← written slot.allocation with
      | .baNotAllocated => free
      | .baAllocated => used slot) w Q := by
  refine runs_bind.mpr (hb.runs_slot haddr hblk hx fun slot hs => ?_)
  cases x with
  | none =>
    rw [show slot.allocation = some .baNotAllocated from hs]
    exact hfree rfl
  | some y =>
    rw [show slot = ⟨some y.entry, some .baAllocated⟩ from hs]
    exact hused y rfl

/-- The first free slot, or all slots are allocated. -/
theorem runs_firstFree {s r : List (Option (Stored δ))} (hb : SlotsShow blk (s ++ r))
    (haddr : h.bucketArray.addr ≠ none) {b : Nat} (hblk : h.bucketArray.cells[b]? = some blk)
    {Q : Option Nat → World → Prop} (hnone : none ∉ r → Q none w)
    (hsome : ∀ p q, r = p ++ none :: q → Q (some (s ++ p).length) w) :
    Runs E (firstFree h b r.length s.length) w Q := by
  induction r generalizing s with
  | nil => exact hnone nofun
  | cons y r ih =>
    have hy : (s ++ y :: r)[s.length]? = some y := by simp
    have hb' : SlotsShow blk (s ++ [y] ++ r) := by simpa using hb
    rw [List.length_cons, firstFree]
    refine hb.runs_written haddr hblk hy ?_ ?_
    · rintro rfl
      simpa using hsome [] r rfl
    · rintro x rfl
      have := ih (s := s ++ [some x]) hb' (fun hn => hnone (by simpa using hn)) ?_
      · simpa using this
      · rintro p q rfl
        simpa using hsome (some x :: p) q rfl

end SlotsShow

/-! ## Handles -/

theorem arrayContents_getElem {bs : List (List (Option (Stored δ)))} {b : Nat}
    {l : List (Option (Stored δ))} (hb : bs[b]? = some l) :
    (arrayContents bs)[b]? = some l.reduceOption := by
  simp [arrayContents, hb]

theorem arrayContents_set {bs : List (List (Option (Stored δ)))} (b : Nat)
    (l : List (Option (Stored δ))) :
    arrayContents (bs.set b l) = (arrayContents bs).set b l.reduceOption := by
  rw [arrayContents, arrayContents, List.map_set]

namespace ArrayRep

variable {bs : List (List (Option (Stored δ)))} {b : Nat} {l : List (Option (Stored δ))}

theorem exists_bucket (hr : ArrayRep h bs) (hu : h.tableSize ≠ 0) (k : Key) :
    ∃ l, bs[h.toUserSettings.bucket k]? = some l := by
  obtain ⟨m, hm⟩ := hr.table.exists_bucket hu k
  rw [arrayContents, List.getElem?_map, Option.map_eq_some_iff] at hm
  obtain ⟨l, hl, -⟩ := hm
  exact ⟨l, hl⟩

/-- The key is looked up in its bucket. -/
theorem find_contents (hr : ArrayRep h bs) {k : Key}
    (hok : h.hashFunc.Respects h.keyCmp (keysWith (arrayContents bs).flatten k))
    (hb : bs[h.toUserSettings.bucket k]? = some l) :
    h.keyCmp.find (arrayContents bs).flatten k = h.keyCmp.find l.reduceOption k :=
  hr.table.find_flatten hok (arrayContents_getElem hb)

theorem size_of_bucket (hr : ArrayRep h bs) (hb : bs[b]? = some l) :
    h.bucketArraySlotSize.cells[b]? = some (UInt32.ofNat l.reduceOption.length) := by
  rw [hr.sizes, List.getElem?_map, hb]
  rfl

theorem max_of_bucket (hr : ArrayRep h bs) (hb : bs[b]? = some l) :
    h.bucketArraySlotMax.cells[b]? = some (UInt32.ofNat l.length) := by
  rw [hr.maxs, List.getElem?_map, hb]
  rfl

theorem toNat_max (hr : ArrayRep h bs) (hb : bs[b]? = some l) :
    (UInt32.ofNat l.length).toNat = l.length := by
  rw [UInt32.toNat_ofNat', Nat.mod_eq_of_lt (hr.fits l (List.mem_of_getElem? hb))]

theorem toNat_size (hr : ArrayRep h bs) (hb : bs[b]? = some l) :
    (UInt32.ofNat l.reduceOption.length).toNat = l.reduceOption.length := by
  rw [UInt32.toNat_ofNat', Nat.mod_eq_of_lt]
  exact Nat.lt_of_le_of_lt l.reduceOption_length_le (hr.fits l (List.mem_of_getElem? hb))

theorem lt_array (hr : ArrayRep h bs) (hb : bs[b]? = some l) : b < h.bucketArray.cells.length := by
  rw [hr.arrayLength]
  exact (List.getElem?_eq_some_iff.mp hb).1

theorem lt_sizes (hr : ArrayRep h bs) (hb : bs[b]? = some l) :
    b < h.bucketArraySlotSize.cells.length := by
  rw [hr.sizes, List.length_map]
  exact (List.getElem?_eq_some_iff.mp hb).1

theorem lt_maxs (hr : ArrayRep h bs) (hb : bs[b]? = some l) :
    b < h.bucketArraySlotMax.cells.length := by
  rw [hr.maxs, List.length_map]
  exact (List.getElem?_eq_some_iff.mp hb).1

theorem count_eq (hr : ArrayRep h bs) (hb : bs[b]? = some l) :
    h.noObjects = UInt32.ofNat (l.reduceOption.length + (others (arrayContents bs) b).length) := by
  rw [hr.count, (flatten_perm (arrayContents_getElem hb)).length_eq, List.length_append]

theorem runs_written (hr : ArrayRep h bs) (hb : bs[b]? = some l) {i : Nat} {x : Option (Stored δ)}
    (hx : l[i]? = some x) {β : Type} {free : Prog β} {used : HiBucketAObj δ → Prog β}
    {Q : β → World → Prop} (hfree : x = none → Runs E free w Q)
    (hused : ∀ y, x = some y → Runs E (used ⟨some y.entry, some .baAllocated⟩) w Q) :
    Runs E (do
      let slot ← h.slot b i
      match ← written slot.allocation with
      | .baNotAllocated => free
      | .baAllocated => used slot) w Q := by
  obtain ⟨blk, hblk, hslots⟩ := hr.slots b l hb
  exact hslots.runs_written hr.arrayAddr hblk hx hfree hused

/-! ## The search loops -/

/-- The search finds the first pair with the key, or there is none. -/
theorem runs_scan (hr : ArrayRep h bs) {k : Key} {s r : List (Option (Stored δ))}
    (hb : bs[b]? = some (s ++ r)) {Q : Option (Nat × Entry δ) → World → Prop}
    (hnone : h.keyCmp.find r.reduceOption k = none → Q none w)
    (hsome : ∀ p x q, r = p ++ some x :: q → h.keyCmp.find r.reduceOption k = some x →
      Q (some ((s ++ p).length, x.entry)) w) :
    Runs E (scan h b (UInt32.ofNat (s ++ r).reduceOption.length) k.bytes r.length s.length
      (UInt32.ofNat s.reduceOption.length)) w Q := by
  induction r generalizing s with
  | nil => exact hnone rfl
  | cons y r ih =>
    have hsize := hr.toNat_size hb
    have hlt : s.reduceOption.length < 2 ^ 32 := by
      have hle := (s ++ y :: r).reduceOption_length_le
      have hfit := hr.fits _ (List.mem_of_getElem? hb)
      rw [List.reduceOption_append, List.length_append] at hle
      omega
    have hseen : (UInt32.ofNat s.reduceOption.length).toNat = s.reduceOption.length := by
      rw [UInt32.toNat_ofNat', Nat.mod_eq_of_lt hlt]
    rw [List.length_cons, scan]
    refine runs_ite.mpr ⟨fun hge => ?_, fun _ => ?_⟩
    · -- All allocated slots were seen.
      have hge' := UInt32.le_iff_toNat_le.mp hge
      rw [hsize, hseen, List.reduceOption_append, List.length_append] at hge'
      refine hnone ?_
      rw [List.length_eq_zero_iff.mp (show (y :: r).reduceOption.length = 0 by omega)]
      rfl
    have hy : (s ++ y :: r)[s.length]? = some y := by simp
    have hb' : bs[b]? = some (s ++ [y] ++ r) := by simpa using hb
    -- The search goes on behind a slot that does not hold the key.
    have hnext : h.keyCmp.find (y :: r).reduceOption k = h.keyCmp.find r.reduceOption k →
        Runs E (scan h b (UInt32.ofNat (s ++ y :: r).reduceOption.length) k.bytes r.length
          (s.length + 1) (UInt32.ofNat (s ++ [y]).reduceOption.length)) w Q := by
      intro hfind
      have := ih (s := s ++ [y]) hb' (fun hn => hnone (hfind.trans hn)) ?_
      · simpa using this
      · rintro p x q rfl hx
        simpa using hsome (y :: p) x q rfl (hfind.trans hx)
    refine hr.runs_written hb hy ?_ ?_
    · rintro rfl
      have hcount : (s ++ [none]).reduceOption.length = s.reduceOption.length := by
        rw [List.reduceOption_append, List.reduceOption_singleton, List.length_append]
        rfl
      have := hnext rfl
      rwa [hcount] at this
    · rintro x rfl
      show Runs E (if h.keyCmp k.bytes x.entry.key.cells = 0 then _ else _) w Q
      rw [List.reduceOption_cons_of_some, KeyCmp.find_cons] at hnext
      refine runs_ite.mpr ⟨fun hhit => ?_, fun hmiss => ?_⟩
      · have hs : h.keyCmp.same k x.key := hhit
        have := hsome [] x r rfl (by
          rw [List.reduceOption_cons_of_some, KeyCmp.find_cons, if_pos hs])
        simpa using this
      · have hs : ¬ h.keyCmp.same k x.key := hmiss
        have hcount : (s ++ [some x]).reduceOption.length = s.reduceOption.length + 1 := by
          rw [List.reduceOption_append, List.reduceOption_singleton, List.length_append]
          rfl
        have := hnext (if_neg hs)
        rwa [hcount, ofNat_succ] at this

theorem runs_scanBucket (hr : ArrayRep h bs) {k : Key} (hb : bs[b]? = some l)
    {Q : Option (Nat × Entry δ) → World → Prop}
    (hnone : h.keyCmp.find l.reduceOption k = none → Q none w)
    (hsome : ∀ p x q, l = p ++ some x :: q → h.keyCmp.find l.reduceOption k = some x →
      Q (some (p.length, x.entry)) w) : Runs E (h.scanBucket b k.bytes) w Q := by
  unfold HiHandle.scanBucket
  refine runs_bind.mpr (Block.runs_load hr.maxAddr (hr.max_of_bucket hb) ?_)
  refine runs_bind.mpr (Block.runs_load hr.sizeAddr (hr.size_of_bucket hb) ?_)
  rw [hr.toNat_max hb]
  exact hr.runs_scan (s := []) hb hnone hsome

end ArrayRep

end Hashish
