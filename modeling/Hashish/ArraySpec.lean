import Hashish.ArrayLayout
import Hashish.MapMachine

/-!
# What the array engine does

* `runs_lhiGetArray`, `runs_lhiRemoveArray`: the pair with the key is returned, taken
  out.
* `runs_growBucket`: an exhausted bucket doubles, or is lost.
* `runs_lhiInsertArray`: the four ways an insertion can end.
* `runs_lhiCreateEngArray`: the start of a table.
-/

namespace Hashish

open Hashish.Lib

variable {δ : Type} {E : Fault → Prop} {w : World} {h : HiHandle δ}
  {bs : List (List (Option (Stored δ)))} {b : Nat} {l : List (Option (Stored δ))}

theorem reduceOption_split {p q : List (Option (Stored δ))} {x : Stored δ} :
    (p ++ some x :: q).reduceOption.Perm (x :: (p ++ none :: q).reduceOption) := by
  rw [List.reduceOption_append, List.reduceOption_append, List.reduceOption_cons_of_some,
    List.reduceOption_cons_of_none]
  exact List.perm_middle

theorem set_split {p q : List (Option (Stored δ))} {x y : Option (Stored δ)} :
    (p ++ x :: q).set p.length y = p ++ y :: q := by
  rw [List.set_append_right _ _ (Nat.le_refl _), Nat.sub_self, List.set_cons_zero]

namespace ArrayRep

theorem placed (hr : ArrayRep h bs) (hb : bs[b]? = some l) {x : Stored δ}
    (hx : x ∈ l.reduceOption) : h.toUserSettings.bucket x.key = b :=
  hr.table.placed b _ (arrayContents_getElem hb) x hx

/-- The handle after bucket `b` was replaced. -/
theorem update (hr : ArrayRep h bs) (hb : bs[b]? = some l) {h' : HiHandle δ}
    {l' : List (Option (Stored δ))} {blk : Block (HiBucketAObj δ)}
    (hu : h'.toUserSettings = h.toUserSettings)
    (harray : h'.bucketArray = { h.bucketArray with cells := h.bucketArray.cells.set b blk })
    (hshow : SlotsShow blk l')
    (hsize : h'.bucketArraySlotSize = { h.bucketArraySlotSize with
      cells := h.bucketArraySlotSize.cells.set b (UInt32.ofNat l'.reduceOption.length) })
    (hmax : h'.bucketArraySlotMax = { h.bucketArraySlotMax with
      cells := h.bucketArraySlotMax.cells.set b (UInt32.ofNat l'.length) })
    (hcount : h'.noObjects =
      UInt32.ofNat (l'.reduceOption.length + (others (arrayContents bs) b).length))
    (hplaced : ∀ x ∈ l'.reduceOption, h.toUserSettings.bucket x.key = b)
    (hne : l' ≠ []) (hfits : l'.length < 2 ^ 32) : ArrayRep h' (bs.set b l') := by
  have hall : ∀ m ∈ bs.set b l', m ∈ bs ∨ m = l' := fun m hm => List.mem_or_eq_of_mem_set hm
  refine ⟨harray ▸ hr.arrayAddr, ?_, ?_, hsize ▸ hr.sizeAddr, ?_, hmax ▸ hr.maxAddr, ?_, ?_, ?_,
    fun m hm => (hall m hm).elim (hr.nonempty m) fun he => he ▸ hne,
    fun m hm => (hall m hm).elim (hr.fits m) fun he => he ▸ hfits⟩
  · simp [harray, hr.arrayLength]
  · intro c m hm
    rw [harray]
    show ∃ blk', (h.bucketArray.cells.set b blk)[c]? = some blk' ∧ SlotsShow blk' m
    rw [List.getElem?_set] at hm ⊢
    by_cases hbc : b = c
    · subst hbc
      rw [if_pos rfl, if_pos (List.getElem?_eq_some_iff.mp hb).1] at hm
      cases hm
      exact ⟨blk, by rw [if_pos rfl, if_pos (hr.lt_array hb)], hshow⟩
    · rw [if_neg hbc] at hm ⊢
      exact hr.slots c m hm
  · rw [hsize, hr.sizes, List.map_set]
  · rw [hmax, hr.maxs, List.map_set]
  · rw [hcount, arrayContents_set,
      (flatten_set_perm (arrayContents_getElem hb) l'.reduceOption).length_eq, List.length_append]
  · rw [hu, arrayContents_set]
    exact hr.table.set hplaced

/-- Writing a slot. -/
theorem runs_setSlot (hr : ArrayRep h bs) (hb : bs[b]? = some l) {i : Nat} (hi : i < l.length)
    {slot : HiBucketAObj δ} {Q : HiHandle δ → World → Prop}
    (hQ : ∀ blk, h.bucketArray.cells[b]? = some blk → SlotsShow blk l →
      Q { h with bucketArray := { h.bucketArray with
        cells := h.bucketArray.cells.set b { blk with cells := blk.cells.set i slot } } } w) :
    Runs E (h.setSlot b i slot) w Q := by
  obtain ⟨blk, hblk, hslots⟩ := hr.slots b l hb
  refine runs_bind.mpr (Block.runs_load hr.arrayAddr hblk ?_)
  refine runs_bind.mpr (Block.runs_store hslots.addr (hslots.length ▸ hi) ?_)
  exact runs_bind.mpr (Block.runs_store hr.arrayAddr (hr.lt_array hb) (hQ blk hblk hslots))

/-- A bucket that stays in its block. -/
theorem arrayBlocks_set {blk : Block (HiBucketAObj δ)} {cells : List (HiBucketAObj δ)}
    {sizes : List UInt32} {n : UInt32} (hblk : h.bucketArray.cells[b]? = some blk) :
    arrayBlocks { h with
      bucketArray := { h.bucketArray with
        cells := h.bucketArray.cells.set b { blk with cells := cells } }
      bucketArraySlotSize := { h.bucketArraySlotSize with cells := sizes }
      noObjects := n } = arrayBlocks h := by
  obtain ⟨p, q, hcells, hset⟩ := exists_split hblk
  have haddrs : (h.bucketArray.cells.set b { blk with cells := cells }).filterMap Block.addr =
      h.bucketArray.cells.filterMap Block.addr := by
    rw [hset, hcells]
    simp only [List.filterMap_append, List.filterMap_cons]
  exact congrArg (· ++ _) haddrs

/-- A bucket that moves to another block. -/
theorem arrayBlocks_move {blk blk' : Block (HiBucketAObj δ)} {old new : Ptr} {maxs : List UInt32}
    (hblk : h.bucketArray.cells[b]? = some blk) (hold : blk.addr = some old)
    (hnew : blk'.addr = some new) :
    (new :: arrayBlocks h).Perm (old :: arrayBlocks { h with
      bucketArraySlotMax := { h.bucketArraySlotMax with cells := maxs }
      bucketArray := { h.bucketArray with cells := h.bucketArray.cells.set b blk' } }) := by
  obtain ⟨p, q, hcells, hset⟩ := exists_split hblk
  have haddrs : (new :: h.bucketArray.cells.filterMap Block.addr).Perm
      (old :: (h.bucketArray.cells.set b blk').filterMap Block.addr) := by
    rw [hset, hcells]
    simp only [List.filterMap_append, List.filterMap_cons, hold, hnew]
    refine (List.perm_middle.cons new).trans (.trans (.swap _ _ _) ?_)
    exact List.perm_middle.symm.cons old
  exact haddrs.append_right _

section Operations

variable {k : Key} (he : h.collEng = .array) (hr : ArrayRep h bs) (hu : h.tableSize ≠ 0)
  (hb : bs[h.toUserSettings.bucket k]? = some l)
include he hr hu hb

/-! ## Retrieval and removal -/

theorem runs_lhiGetArray : Runs E (lhiGetArray h k.bytes k.keylen) w fun r w' =>
    r = resultOf (h.keyCmp.find l.reduceOption k) ∧ w'.requests = w.requests ∧
      w'.moves = w.moves := by
  unfold lhiGetArray
  rw [runs_bind, runs_bucketOf hu]
  simp only [he, runs_bind, runs_mutexLock]
  refine hr.runs_scanBucket hb (fun hn => ?_) fun p x q _ hx => ?_
  · rw [hn]
    exact ⟨rfl, rfl, by simp⟩
  · rw [hx]
    exact ⟨rfl, rfl, by simp⟩

theorem runs_lhiRemoveArray {Q : Result δ × HiHandle δ → World → Prop}
    (hnone : h.keyCmp.find l.reduceOption k = none → ∀ w', w ≤ w' → w'.moves = w.moves →
      Q (⟨hiErrNokey, none⟩, h) w')
    (hsome : ∀ p x q h' w', l = p ++ some x :: q → h.keyCmp.find l.reduceOption k = some x →
      ArrayRep h' (bs.set (h.toUserSettings.bucket k) (p ++ none :: q)) →
      h'.toUserSettings = h.toUserSettings → w ≤ w' →
      w.Books w' (x.keyAddr :: arrayBlocks h) (arrayBlocks h') → Q (⟨success, some x.data⟩, h') w') :
    Runs E (lhiRemoveArray h k.bytes k.keylen) w Q := by
  unfold lhiRemoveArray
  rw [runs_bind, runs_bucketOf hu]
  simp only [he, runs_bind, runs_mutexLock]
  have hlog : w ≤ w.log (.lock h.mutexLock) := w.le_log _
  refine hr.runs_scanBucket hb (fun hn => ?_) fun p x q hl hx => ?_
  · exact hnone hn _ (hlog.trans (World.le_log _ _)) (by simp)
  subst hl
  have hget : (p ++ some x :: q)[p.length]? = some (some x) := by simp
  have hperm : (p ++ some x :: q).reduceOption.Perm (x :: (p ++ none :: q).reduceOption) :=
    reduceOption_split
  have hlen := hperm.length_eq
  rw [List.length_cons] at hlen
  dsimp only
  rw [runs_bind]
  refine runs_free_moves fun w₁ hw₁ _ hm₁ => ?_
  obtain ⟨blk, hblk, hslots⟩ := hr.slots _ _ hb
  refine runs_bind.mpr (hslots.runs_slot hr.arrayAddr hblk hget fun slot hs => ?_)
  refine runs_bind.mpr (hr.runs_setSlot hb (by simp) fun blk hcell hblk => ?_)
  refine runs_bind.mpr (Block.runs_load hr.sizeAddr (hr.size_of_bucket hb) ?_)
  refine runs_bind.mpr (Block.runs_store hr.sizeAddr (hr.lt_sizes hb) ?_)
  simp only [runs_bind, runs_mutexUnlock, runs_pure]
  refine hsome p x q _ _ rfl hx ?_ rfl (hlog.trans (hw₁.trans (World.le_log _ _)))
    (.gives (show _ = w.moves ++ [x.keyAddr].map .give by simp [hm₁, Stored.entry])
      (arrayBlocks_set hcell ▸ .refl _))
  have hfree : SlotShows { slot with allocation := some .baNotAllocated } none := rfl
  refine hr.update hb rfl rfl (set_split ▸ hblk.set hfree) ?_ ?_ ?_ ?_ ?_ ?_
  · rw [hlen, ofNat_pred]
  · have hself := set_self (hr.max_of_bucket hb)
    rw [show (p ++ none :: q).length = (p ++ some x :: q).length by simp, hself]
  · show h.noObjects - 1 = _
    rw [hr.count_eq hb, hlen, Nat.add_right_comm, ofNat_pred]
  · exact fun y hy => hr.placed hb (hperm.mem_iff.mpr (List.mem_cons_of_mem _ hy))
  · simp
  · have := hr.fits _ (List.mem_of_getElem? hb)
    simpa using this

end Operations

/-! ## Insertion -/

/-- The handle after `realloc` failed for the exhausted bucket `b` of `n` slots. -/
def lostBucket (h : HiHandle δ) (b n : Nat) : HiHandle δ :=
  { h with
    bucketArraySlotMax := { h.bucketArraySlotMax with
      cells := h.bucketArraySlotMax.cells.set b (UInt32.ofNat n <<< 1) }
    bucketArray := { h.bucketArray with cells := h.bucketArray.cells.set b .null } }

/-- The slots among which an insertion looks for a free one: an exhausted bucket doubles. -/
def grown (l : List (Option (Stored δ))) : List (Option (Stored δ)) :=
  if l.reduceOption.length < l.length then l else l ++ List.replicate l.length none

theorem grown_of_mem (hfree : none ∈ l) : grown l = l :=
  if_pos (List.reduceOption_length_lt_iff.mpr hfree)

theorem grown_of_not_mem (hfull : none ∉ l) : grown l = l ++ List.replicate l.length none :=
  if_neg fun hlt => hfull (List.reduceOption_length_lt_iff.mp hlt)

theorem reduceOption_grown (l : List (Option (Stored δ))) :
    (grown l).reduceOption = l.reduceOption := by
  rw [grown]
  split
  · rfl
  · rw [List.reduceOption_append, List.reduceOption_replicate_none, List.append_nil]

theorem mem_grown (hl : l ≠ []) : none ∈ grown l := by
  by_cases hfree : none ∈ l
  · rwa [grown_of_mem hfree]
  · rw [grown_of_not_mem hfree]
    exact List.mem_append_right _ (List.mem_replicate.mpr ⟨mt List.length_eq_zero_iff.mp hl, rfl⟩)

/-- Only an exhausted bucket grows. The doubled number of slots wraps when there were `2 ^ 31` slots
or more; then no slot of the smaller bucket is free. -/
theorem runs_growBucket (hr : ArrayRep h bs) (hb : bs[b]? = some l)
    {Q : HiHandle δ × Bool → World → Prop} (hroom : none ∈ l → Q (h, true) w)
    (hlost : none ∉ l → ∀ w', w ≤ w' → w.Refused 0 w' → Q (lostBucket h b l.length, false) w')
    (hwrap : none ∉ l → 2 ^ 31 ≤ l.length → ∀ h' w' blk n, w ≤ w' → w.Served 1 w' →
      h'.toUserSettings = h.toUserSettings → h'.bucketArray.addr ≠ none →
      h'.bucketArray.cells[b]? = some blk → SlotsShow blk (l.take n) → n ≤ l.length →
      h'.bucketArraySlotMax.addr ≠ none →
      h'.bucketArraySlotMax.cells[b]? = some (UInt32.ofNat (l.take n).length) → Q (h', true) w')
    (hgrown : none ∉ l → l.length < 2 ^ 31 → ∀ h' w', w ≤ w' → w.Served 1 w' →
      h'.toUserSettings = h.toUserSettings → ArrayRep h' (bs.set b (grown l)) →
      w.Books w' (arrayBlocks h) (arrayBlocks h') → Q (h', true) w') :
    Runs E (h.growBucket b) w Q := by
  obtain ⟨blk, hblk, hslots⟩ := hr.slots b l hb
  have hsize := hr.toNat_size hb
  have hmax := hr.toNat_max hb
  have hfits := hr.fits l (List.mem_of_getElem? hb)
  have hfull : UInt32.ofNat l.reduceOption.length ≥ UInt32.ofNat l.length ↔ none ∉ l := by
    rw [ge_iff_le, UInt32.le_iff_toNat_le, hsize, hmax, ← List.reduceOption_length_lt_iff,
      Nat.not_lt]
  have hdouble : (UInt32.ofNat l.length <<< 1).toNat = 2 * l.length % 2 ^ 32 := by
    rw [UInt32.toNat_shiftLeft, hmax, show (1 : UInt32).toNat % 32 = 1 from rfl,
      Nat.shiftLeft_eq, Nat.mul_comm]
  unfold HiHandle.growBucket
  refine runs_bind.mpr (Block.runs_load hr.sizeAddr (hr.size_of_bucket hb) ?_)
  refine runs_bind.mpr (Block.runs_load hr.maxAddr (hr.max_of_bucket hb) ?_)
  refine runs_ite.mpr ⟨fun hge => ?_, fun hge => hroom (not_not.mp (hge ∘ hfull.mpr))⟩
  have hno := hfull.mp hge
  refine runs_bind.mpr (Block.runs_store hr.maxAddr (hr.lt_maxs hb) ?_)
  refine runs_bind.mpr (Block.runs_load hr.arrayAddr hblk ?_)
  unfold reallocSlots realloc
  refine runs_bind.mpr (runs_bind.mpr (runs_bind.mpr (runs_malloc_refused ?_ ?_)))
  · intro w₁ hw₁ hs
    simp only [runs_pure]
    exact runs_bind.mpr (Block.runs_store hr.arrayAddr (hr.lt_array hb) (hlost hno w₁ hw₁ hs))
  · intro junk w₁ hw₁ hreq₁ hjunk hm₁
    refine runs_bind.mpr (runs_free_moves fun w₂ hw₂ hreq₂ hm₂ => ?_)
    have hserved : w.Served 1 w₂ := (World.Served.one hreq₁ hjunk).after hreq₂
    simp only [runs_pure]
    refine runs_bind.mpr (Block.runs_store hr.arrayAddr (hr.lt_array hb) ?_)
    have hresize := hslots.resize w.requests (2 * l.length % 2 ^ 32)
    rw [hmax, hdouble]
    by_cases hlt : l.length < 2 ^ 31
    · have htwo : 2 * l.length % 2 ^ 32 = 2 * l.length := Nat.mod_eq_of_lt (by omega)
      rw [htwo] at hresize hdouble ⊢
      have htake : l.take (2 * l.length) = l := List.take_of_length_le (by omega)
      rw [htake, show 2 * l.length - l.length = l.length by omega] at hresize
      refine hgrown hno hlt _ w₂ (hw₁.trans hw₂) hserved rfl ?_ (.trans (.take hm₁) (.gives hm₂ ?_))
      swap
      · obtain ⟨old, hold⟩ := Option.ne_none_iff_exists'.mp hslots.addr
        rw [hold]
        exact arrayBlocks_move hblk hold rfl
      rw [grown_of_not_mem hno]
      have hcells : (l ++ List.replicate l.length none).reduceOption = l.reduceOption := by
        rw [List.reduceOption_append, List.reduceOption_replicate_none, List.append_nil]
      refine hr.update hb rfl rfl hresize ?_ ?_ ?_ ?_ ?_ ?_
      · rw [hcells, set_self (hr.size_of_bucket hb)]
      · rw [List.length_append, List.length_replicate, ← Nat.two_mul, ← hdouble,
          UInt32.ofNat_toNat]
      · rw [hcells]
        exact hr.count_eq hb
      · rw [hcells]
        exact fun x hx => hr.placed hb hx
      · exact fun he => hr.nonempty l (List.mem_of_getElem? hb) (List.append_eq_nil_iff.mp he).1
      · rw [List.length_append, List.length_replicate]
        omega
    · have hle : 2 * l.length % 2 ^ 32 ≤ l.length := by omega
      rw [Nat.sub_eq_zero_of_le hle, List.replicate_zero, List.append_nil] at hresize
      refine hwrap hno (Nat.not_lt.mp hlt) _ w₂ _ (2 * l.length % 2 ^ 32) (hw₁.trans hw₂)
        hserved rfl hr.arrayAddr ?_ hresize hle hr.maxAddr ?_
      · exact List.getElem?_set_self (hr.lt_array hb)
      · show (h.bucketArraySlotMax.cells.set b _)[b]? = _
        rw [List.getElem?_set_self (hr.lt_maxs hb), List.length_take, Nat.min_eq_left hle, ← hdouble,
          UInt32.ofNat_toNat]

/-- A pair is put into a free slot. -/
theorem fill (hr : ArrayRep h bs) {p q : List (Option (Stored δ))}
    (hb : bs[b]? = some (p ++ none :: q)) {x : Stored δ} (hx : h.toUserSettings.bucket x.key = b)
    {blk : Block (HiBucketAObj δ)} (hblk : SlotsShow blk (p ++ none :: q)) :
    ArrayRep { h with
      bucketArray := { h.bucketArray with
        cells := h.bucketArray.cells.set b { blk with
          cells := blk.cells.set p.length ⟨some x.entry, some .baAllocated⟩ } }
      bucketArraySlotSize := { h.bucketArraySlotSize with
        cells := h.bucketArraySlotSize.cells.set b
          (UInt32.ofNat (p ++ none :: q).reduceOption.length + 1) }
      noObjects := h.noObjects + 1 } (bs.set b (p ++ some x :: q)) := by
  have hperm : (p ++ some x :: q).reduceOption.Perm (x :: (p ++ none :: q).reduceOption) :=
    reduceOption_split
  have hlen := hperm.length_eq
  rw [List.length_cons] at hlen
  have hused : SlotShows ⟨some x.entry, some .baAllocated⟩ (some x) := rfl
  refine hr.update hb rfl rfl (set_split ▸ hblk.set hused) ?_ ?_ ?_ ?_ ?_ ?_
  · rw [hlen, ofNat_succ]
  · have hself := set_self (hr.max_of_bucket hb)
    rw [show (p ++ some x :: q).length = (p ++ none :: q).length by simp, hself]
  · show h.noObjects + 1 = _
    rw [hr.count_eq hb, hlen, Nat.add_right_comm, ofNat_succ]
  · intro y hy
    rcases List.mem_cons.mp (hperm.mem_iff.mp hy) with rfl | hy
    · exact hx
    · exact hr.placed hb hy
  · simp
  · have := hr.fits _ (List.mem_of_getElem? hb)
    simpa using this

/-- Every bucket keeps its size, or doubles when it was exhausted. -/
def GrowsFrom (bs bs' : List (List (Option (Stored δ)))) : Prop :=
  ∀ m ∈ bs', ∃ l ∈ bs, m.length = l.length ∨ (none ∉ l ∧ m.length = 2 * l.length)

theorem GrowsFrom.refl (bs : List (List (Option (Stored δ)))) : GrowsFrom bs bs :=
  fun m hm => ⟨m, hm, .inl rfl⟩

theorem GrowsFrom.set (hb : bs[b]? = some l) {m : List (Option (Stored δ))}
    (hm : m.length = l.length ∨ (none ∉ l ∧ m.length = 2 * l.length)) :
    GrowsFrom bs (bs.set b m) := by
  intro m' hm'
  rcases List.mem_or_eq_of_mem_set hm' with hm' | rfl
  · exact ⟨m', hm', .inl rfl⟩
  · exact ⟨l, List.mem_of_getElem? hb, hm⟩

theorem length_grown (l : List (Option (Stored δ))) :
    (grown l).length = l.length ∨ (none ∉ l ∧ (grown l).length = 2 * l.length) := by
  by_cases hfree : none ∈ l
  · rw [grown_of_mem hfree]
    exact .inl rfl
  · rw [grown_of_not_mem hfree, List.length_append, List.length_replicate, ← Nat.two_mul]
    exact .inr ⟨hfree, rfl⟩

/-- The number of blocks that an insertion into the bucket takes before that of the key. -/
def Blocks (l : List (Option (Stored δ))) (n : Nat) : Prop :=
  (none ∈ l ∧ n = 0) ∨ (none ∉ l ∧ n = 1)

/-- The part of an insertion that fills a free slot, once the bucket has one. -/
theorem runs_fillFreeSlot {k : Key} {d : δ} {b : Nat} (hr : ArrayRep h bs)
    (hplace : h.toUserSettings.bucket k = b) (hb : bs[b]? = some l) (hfree : none ∈ l)
    {Q : Int × HiHandle δ → World → Prop}
    (hnokey : ∀ w', w ≤ w' → w.Refused 0 w' → Q (hiErrSystem, h) w')
    (hdone : ∀ x p q h' w', w ≤ w' → w.Served 1 w' → x.pair = (k, d) → l = p ++ none :: q →
      h'.toUserSettings = h.toUserSettings → ArrayRep h' (bs.set b (p ++ some x :: q)) →
      w.Books w' (arrayBlocks h) (x.keyAddr :: arrayBlocks h') → Q (success, h') w') :
    Runs E (h.fillFreeSlot b k.bytes k.keylen d) w Q := by
  obtain ⟨blk, hblk, hslots⟩ := hr.slots _ _ hb
  refine runs_bind.mpr (Block.runs_load hr.maxAddr (hr.max_of_bucket hb) ?_)
  rw [hr.toNat_max hb]
  have hstart : SlotsShow blk ([] ++ l) := hslots
  refine runs_bind.mpr (hstart.runs_firstFree hr.arrayAddr hblk (absurd hfree) ?_)
  intro p q hpq
  refine runs_bind.mpr (runs_xallocAlign_refused (fun _ w₁ hw₁ hs _ => hnokey w₁ hw₁ hs)
    fun junk w₁ hw₁ hreq₁ hjunk hm₁ => ?_)
  refine runs_bind.mpr (runs_memcpy k.toNat_keylen ?_)
  refine runs_bind.mpr (hr.runs_setSlot hb (by rw [hpq]; simp) fun blk hcell hblk => ?_)
  refine runs_bind.mpr (Block.runs_load hr.sizeAddr (hr.size_of_bucket hb) ?_)
  refine runs_bind.mpr (Block.runs_store hr.sizeAddr (hr.lt_sizes hb) ?_)
  simp only [runs_bind, runs_mutexUnlock, runs_pure]
  have hfill := hr.fill (p := p) (q := q) (x := ⟨k, d, w.requests⟩) (hpq ▸ hb) hplace (hpq ▸ hblk)
  rw [← hpq] at hfill
  exact hdone ⟨k, d, w.requests⟩ p q _ _ (hw₁.trans (w₁.le_log _))
    ((World.Served.one hreq₁ hjunk).after rfl) rfl hpq rfl hfill
    (arrayBlocks_set hcell ▸ .take (by simpa using hm₁))

/-- The part of an insertion that holds the mutex. It does not look for the key. -/
theorem runs_lhiInsertArraySlot {k : Key} {d : δ} (hr : ArrayRep h bs)
    (hb : bs[h.toUserSettings.bucket k]? = some l) {Q : Int × HiHandle δ → World → Prop}
    (hlost : none ∉ l → ∀ w', w ≤ w' → w.Refused 0 w' →
      Q (hiErrSystem, lostBucket h (h.toUserSettings.bucket k) l.length) w')
    (hwrap : none ∉ l → 2 ^ 31 ≤ l.length → ∀ h' w', w ≤ w' → w.Served 1 w' →
      h'.toUserSettings = h.toUserSettings → Q (hiErrInternal, h') w')
    (hnokey : ∀ n h' w', w ≤ w' → Blocks l n → w.Refused n w' →
      h'.toUserSettings = h.toUserSettings → (none ∈ l → h' = h) →
      ArrayRep h' (bs.set (h.toUserSettings.bucket k) (grown l)) → Q (hiErrSystem, h') w')
    (hdone : ∀ x p q n h' w', w ≤ w' → Blocks l n → w.Served (n + 1) w' → x.pair = (k, d) →
      grown l = p ++ none :: q → h'.toUserSettings = h.toUserSettings →
      ArrayRep h' (bs.set (h.toUserSettings.bucket k) (p ++ some x :: q)) →
      w.Books w' (arrayBlocks h) (x.keyAddr :: arrayBlocks h') → Q (success, h') w') :
    Runs E (lhiInsertArraySlot h (h.toUserSettings.bucket k) k.bytes k.keylen d) w Q := by
  unfold lhiInsertArraySlot
  rw [runs_bind, runs_mutexLock, runs_bind]
  have hw₁ := w.le_log (.lock h.mutexLock)
  have hserved₁ : w.Served 0 (w.log (.lock h.mutexLock)) := .zero rfl
  have hlt := (List.getElem?_eq_some_iff.mp hb).1
  have hne := hr.nonempty l (List.mem_of_getElem? hb)
  -- The rest of the insertion, once there is a free slot.
  have hrest : ∀ h' n w₂, w ≤ w₂ → Blocks l n → w.Served n w₂ →
      ArrayRep h' (bs.set (h.toUserSettings.bucket k) (grown l)) →
      h'.toUserSettings = h.toUserSettings → (none ∈ l → h' = h) →
      w.Books w₂ (arrayBlocks h) (arrayBlocks h') →
      Runs E (h'.fillFreeSlot (h.toUserSettings.bucket k) k.bytes k.keylen d) w₂ Q := by
    intro h' n w₂ hw₂ hn hserved hr' hu' hsame hbooks
    have hb' : (bs.set (h.toUserSettings.bucket k) (grown l))[h.toUserSettings.bucket k]? =
        some (grown l) := List.getElem?_set_self hlt
    refine hr'.runs_fillFreeSlot (by rw [hu']) hb' (mem_grown hne) (fun w₃ hw₃ hs => ?_) ?_
    · exact hnokey n h' w₃ (hw₂.trans hw₃) hn (hserved.refused hw₂ hs) hu' hsame hr'
    · intro x p q h'' w₃ hw₃ hs hx hpq hu'' hr'' hbooks'
      rw [List.set_set] at hr''
      exact hdone x p q n h'' w₃ (hw₂.trans hw₃) hn (hserved.trans hw₂ hs) hx hpq
        (hu''.trans hu') hr'' (hbooks.trans hbooks')
  refine hr.runs_growBucket hb (fun hfree => ?_) (fun hno w₂ hw hs => ?_) ?_ ?_
  · have hself : bs.set (h.toUserSettings.bucket k) (grown l) = bs := by
      rw [grown_of_mem hfree, set_self hb]
    exact hrest h 0 _ hw₁ (.inl ⟨hfree, rfl⟩) hserved₁ (by rw [hself]; exact hr) rfl (fun _ => rfl)
      (.of_perm (by simp) (.refl _))
  · simp only [Bool.not_false, if_true, runs_bind, runs_mutexUnlock, runs_pure]
    have hrefused := hserved₁.refused hw₁ hs
    rw [Nat.add_zero] at hrefused
    exact hlost hno _ (hw₁.trans (hw.trans (w₂.le_log _))) (hrefused.after rfl)
  · intro hno hlen h' w₂ blk n hw hs hu' haddr hblk hslots hn hmaddr hmax
    refine runs_bind.mpr (Block.runs_load hmaddr hmax ?_)
    have htoNat : (UInt32.ofNat (l.take n).length).toNat = (l.take n).length := by
      have := hr.fits l (List.mem_of_getElem? hb)
      rw [UInt32.toNat_ofNat', Nat.mod_eq_of_lt]
      rw [List.length_take]
      omega
    rw [htoNat]
    have hfull : none ∉ l.take n := fun hm => hno (List.mem_of_mem_take hm)
    have hstart : SlotsShow blk ([] ++ l.take n) := hslots
    refine runs_bind.mpr (hstart.runs_firstFree haddr hblk (fun _ => ?_) ?_)
    · simp only [runs_bind, runs_mutexUnlock, runs_pure]
      exact hwrap hno hlen h' _ (hw₁.trans (hw.trans (w₂.le_log _)))
        ((hserved₁.trans hw₁ hs).after rfl) hu'
    · intro p q hpq
      exact absurd (hpq ▸ List.mem_append_right p List.mem_cons_self) hfull
  · intro hno hlen h' w₂ hw hs hu' hr' hbooks
    have hserved : w.Served 1 w₂ := by simpa using hserved₁.trans hw₁ hs
    exact hrest h' 1 w₂ (hw₁.trans hw) (.inr ⟨hno, rfl⟩) hserved hr' hu' (fun hmem => (hno hmem).elim)
      (.trans (.of_perm (by simp) (.refl _)) hbooks)

/-- An insertion finds the key, loses the bucket for lack of memory, has no memory for the copy of
the key, or puts the pair into a free slot. The report of an internal error needs a bucket whose
number of slots has wrapped. -/
theorem runs_lhiInsertArray {k : Key} {d : δ} (he : h.collEng = .array) (hr : ArrayRep h bs)
    (hu : h.tableSize ≠ 0) (hb : bs[h.toUserSettings.bucket k]? = some l)
    {Q : Int × HiHandle δ → World → Prop}
    (hdup : h.keyCmp.find l.reduceOption k ≠ none → ∀ w', w ≤ w' → w'.moves = w.moves →
      Q (hiErrDupkey, h) w')
    (hlost : h.keyCmp.find l.reduceOption k = none → none ∉ l → ∀ w', w ≤ w' → w.Refused 0 w' →
      Q (hiErrSystem, lostBucket h (h.toUserSettings.bucket k) l.length) w')
    (hwrap : h.keyCmp.find l.reduceOption k = none → none ∉ l → 2 ^ 31 ≤ l.length → ∀ h' w',
      w ≤ w' → w.Served 1 w' → h'.toUserSettings = h.toUserSettings → Q (hiErrInternal, h') w')
    (hnokey : h.keyCmp.find l.reduceOption k = none → ∀ n h' w', w ≤ w' → Blocks l n →
      w.Refused n w' → h'.toUserSettings = h.toUserSettings → (none ∈ l → h' = h) →
      ArrayRep h' (bs.set (h.toUserSettings.bucket k) (grown l)) → Q (hiErrSystem, h') w')
    (hdone : h.keyCmp.find l.reduceOption k = none → ∀ x p q n h' w', w ≤ w' → Blocks l n →
      w.Served (n + 1) w' → x.pair = (k, d) → grown l = p ++ none :: q →
      h'.toUserSettings = h.toUserSettings →
      ArrayRep h' (bs.set (h.toUserSettings.bucket k) (p ++ some x :: q)) →
      w.Books w' (arrayBlocks h) (x.keyAddr :: arrayBlocks h') → Q (success, h') w') :
    Runs E (lhiInsertArray h k.bytes k.keylen d) w Q := by
  rw [lhiInsertArray, runs_bind, runs_bucketOf hu]
  refine Runs.bind (hr.runs_lhiGetArray he hu hb) fun found w₁ hw₁ hfound => ?_
  obtain ⟨rfl, hreq₁, hm₁⟩ := hfound
  cases hf : h.keyCmp.find l.reduceOption k with
  | some x =>
    refine runs_ite.mpr ⟨fun _ => ?_, fun hne => (hne rfl).elim⟩
    exact hdup (by rw [hf]; exact nofun) w₁ hw₁ hm₁
  | none =>
  refine runs_ite.mpr ⟨fun hs => absurd (show hiErrNokey = success from hs) (by decide), fun _ => ?_⟩
  have hzero : w.Served 0 w₁ := .zero hreq₁
  have hserved : ∀ {n w'}, w₁.Served n w' → w.Served n w' := fun hs => by
    simpa using hzero.trans hw₁ hs
  have hrefused : ∀ {n w'}, w₁.Refused n w' → w.Refused n w' := fun hs => by
    simpa using hzero.refused hw₁ hs
  refine hr.runs_lhiInsertArraySlot hb ?_ ?_ ?_ ?_
  · exact fun hno w' hw hs => hlost hf hno w' (hw₁.trans hw) (hrefused hs)
  · exact fun hno hlen h' w' hw hs => hwrap hf hno hlen h' w' (hw₁.trans hw) (hserved hs)
  · exact fun n h' w' hw hn hs => hnokey hf n h' w' (hw₁.trans hw) hn (hrefused hs)
  · intro x p q n h' w' hw hn hs hx hpq hu' hr' hbooks
    exact hdone hf x p q n h' w' (hw₁.trans hw) hn (hserved hs) hx hpq hu' hr'
      (.trans (.of_perm (by simpa using hm₁) (.refl _)) hbooks)

/-- The contents after an insertion. -/
theorem perm_of_fill (hb : bs[b]? = some l) {x : Stored δ} {p q : List (Option (Stored δ))}
    (hpq : grown l = p ++ none :: q) :
    (arrayContents (bs.set b (p ++ some x :: q))).flatten.Perm
      (x :: (arrayContents bs).flatten) := by
  rw [arrayContents_set]
  refine (flatten_set_perm (arrayContents_getElem hb) _).trans ?_
  refine .trans ?_ ((flatten_perm (arrayContents_getElem hb)).symm.cons _)
  have hgrown := reduceOption_grown l
  rw [hpq] at hgrown
  rw [← hgrown]
  exact reduceOption_split.append_right _

/-- The contents after a removal. -/
theorem perm_of_clear {x : Stored δ} {p q : List (Option (Stored δ))}
    (hb : bs[b]? = some (p ++ some x :: q)) :
    (arrayContents bs).flatten.Perm
      (x :: (arrayContents (bs.set b (p ++ none :: q))).flatten) := by
  rw [arrayContents_set]
  refine (flatten_perm (arrayContents_getElem hb)).trans ?_
  refine .trans ?_ ((flatten_set_perm (arrayContents_getElem hb) _).symm.cons _)
  exact reduceOption_split.append_right _

/-! ## The end and the start of a table -/

theorem runs_freeSlots {blk : Block (HiBucketAObj δ)} {s r : List (Option (Stored δ))}
    (hslots : SlotsShow blk (s ++ r)) (haddr : h.bucketArray.addr ≠ none)
    (hblk : h.bucketArray.cells[b]? = some blk) {Q : Unit → World → Prop}
    (hQ : ∀ w', w ≤ w' → w'.moves = w.moves ++ (r.reduceOption.map Stored.keyAddr).map .give →
      Q () w') : Runs E (freeSlots h b r.length s.length) w Q := by
  induction r generalizing s w with
  | nil => exact hQ w le_rfl (List.append_nil _).symm
  | cons y r ih =>
    have hy : (s ++ y :: r)[s.length]? = some y := by simp
    have hnext : SlotsShow blk (s ++ [y] ++ r) := by simpa using hslots
    rw [List.length_cons, freeSlots]
    refine hslots.runs_written haddr hblk hy ?_ ?_
    · rintro rfl
      have hrest := ih hnext hQ
      rwa [List.length_append, List.length_singleton] at hrest
    · rintro x rfl
      refine runs_bind.mpr (runs_pure.mpr (runs_bind.mpr (runs_free_moves fun w₁ hw₁ _ hm₁ => ?_)))
      have hrest := ih (w := w₁) hnext fun w₂ hw₂ hm₂ => hQ w₂ (hw₁.trans hw₂) (by
        rw [hm₂, hm₁, List.append_assoc, List.reduceOption_cons_of_some]
        rfl)
      rwa [List.length_append, List.length_singleton] at hrest

/-- The end of a table. All keys are released, the buckets, and the arrays of the table. -/
theorem runs_lhiFiniArray (hr : ArrayRep h bs) {Q : Int × HiHandle δ → World → Prop}
    (hQ : ∀ w', w ≤ w' → w.Books w' (keyBlocks bs ++ arrayBlocks h) h.baseBlocks →
      Q (success, { h with
        bucketArray := { h.bucketArray with cells := [] }
        bucketArraySlotSize := { h.bucketArraySlotSize with cells := [] }
        bucketArraySlotMax := { h.bucketArraySlotMax with cells := [] } }) w') :
    Runs E (lhiFiniArray h) w Q := by
  have hlen : bs.length = h.tableSize.toNat := by simpa [arrayContents] using hr.table.length
  unfold lhiFiniArray
  rw [runs_bind, runs_mutexLock, runs_bind]
  refine Runs.imp (runs_forUp (I := fun i _ w' => w ≤ w' ∧ ∃ ps : List Ptr,
    w'.moves = w.moves ++ ps.map .give ∧ ps.Perm (((arrayContents bs).take i).flatten.map
      Stored.keyAddr ++ (h.bucketArray.cells.take i).filterMap Block.addr))
    ⟨w.le_log _, [], by simp, .refl _⟩ fun i _ w₁ _ hi hI => ?_) fun _ w₁ hI => ?_
  · obtain ⟨hw₁, ps, hm₁, hps⟩ := hI
    have hb : bs[i]? = some bs[i] := List.getElem?_eq_getElem (by omega)
    obtain ⟨blk, hblk, hslots⟩ := hr.slots i _ hb
    refine runs_bind.mpr (Block.runs_load hr.maxAddr (hr.max_of_bucket hb) ?_)
    rw [hr.toNat_max hb]
    have hstart : SlotsShow blk ([] ++ bs[i]) := hslots
    refine runs_bind.mpr (runs_freeSlots hstart hr.arrayAddr hblk fun w₂ hw₂ hm₂ => ?_)
    refine runs_bind.mpr (Block.runs_load hr.arrayAddr hblk ?_)
    refine runs_free_moves fun w₃ hw₃ _ hm₃ => ⟨hw₁.trans (hw₂.trans hw₃),
      ps ++ (bs[i].reduceOption.map Stored.keyAddr ++ blk.addr.toList), ?_, ?_⟩
    · simp [hm₃, hm₂, hm₁]
    · have haddr : (some blk).toList.filterMap Block.addr = blk.addr.toList := by
        cases haddr : blk.addr <;> simp [haddr]
      rw [List.take_add_one, arrayContents_getElem hb, List.take_add_one, hblk, List.filterMap_append,
        haddr, List.flatten_append, List.map_append, List.append_assoc]
      refine (hps.append_right _).trans ?_
      rw [List.append_assoc]
      refine (List.perm_append_comm_assoc _ _ _).append_left _ |>.trans ?_
      simp
  · obtain ⟨hw₁, ps, hm₁, hps⟩ := hI
    refine runs_bind.mpr (runs_free_moves fun w₂ hw₂ _ hm₂ => ?_)
    refine runs_bind.mpr (runs_free_moves fun w₃ hw₃ _ hm₃ => ?_)
    refine runs_bind.mpr (runs_free_moves fun w₄ hw₄ _ hm₄ => ?_)
    rw [runs_bind, runs_mutexUnlock, runs_pure]
    rw [Nat.zero_add, ← hlen, ← hr.arrayLength, List.take_length, hr.arrayLength,
      List.take_of_length_le (by simp [arrayContents])] at hps
    refine hQ _ (hw₁.trans (hw₂.trans (hw₃.trans (hw₄.trans (World.le_log _ _))))) ?_
    refine .trans (.gives hm₁ ?_) (.trans (.gives hm₂ (.refl _)) (.trans (.gives hm₃ (.refl _))
      (.gives (by simpa using hm₄) (.refl _))))
    rw [keyBlocks, arrayBlocks, ← List.append_assoc]
    exact hps.symm.append_right _

theorem runs_initBuckets {slots n : Nat} {buckets : List (Block (HiBucketAObj δ))}
    {Q : Except Int (List (Block (HiBucketAObj δ))) → World → Prop}
    (hfail : ∀ w', w ≤ w' → ¬ w.AllocsSucceed → Q (.error hiErrSystem) w')
    (hdone : ∀ (new : List (Block (HiBucketAObj δ))) w', w ≤ w' → new.length = n →
      (∀ blk ∈ new, SlotsShow blk (List.replicate slots none)) →
      w'.moves = w.moves ++ (new.filterMap Block.addr).map .take → Q (.ok (buckets ++ new)) w') :
    Runs E (initBuckets slots n buckets) w Q := by
  induction n generalizing buckets w with
  | zero =>
    have hall := hdone [] w le_rfl rfl nofun (List.append_nil _).symm
    rwa [List.append_nil] at hall
  | succ n ih =>
    refine runs_bind.mpr (runs_xallocAlign_refused
      (fun _ w₁ hw₁ hr _ => hfail w₁ hw₁ hr.not_allocsSucceed) ?_)
    intro junk w₁ hw₁ _ _ hm₁
    refine ih (fun w₂ hw₂ hs => hfail w₂ (hw₁.trans hw₂) fun hs' => hs (hs'.mono hw₁)) ?_
    intro new w₂ hw₂ hlen hall hm₂
    rw [List.append_assoc]
    refine hdone (_ :: new) w₂ (hw₁.trans hw₂) (by rw [List.length_cons, hlen]) ?_ ?_
    · intro blk hblk
      rcases List.mem_cons.mp hblk with rfl | hblk
      · have hempty : SlotsShow (⟨some 0, []⟩ : Block (HiBucketAObj δ)) [] :=
          ⟨nofun, rfl, fun i x hx => by simp at hx⟩
        simpa using hempty.resize w.requests slots
      · exact hall blk hblk
    · rw [hm₂, hm₁, List.append_assoc]
      rfl

/-- A new table of free slots. -/
theorem runs_lhiCreateEngArray {u : UserSettings} {p lock : Ptr} {sizes : Fresh}
    (hslots : u.collEngArraySize ≠ 0) {Q : Except Int (HiHandle δ) → World → Prop}
    (hfail : ∀ w', w ≤ w' → ¬ w.AllocsSucceed → Q (.error hiErrSystem) w')
    (hdone : ∀ h' w', w ≤ w' → h'.toUserSettings = u →
      ArrayRep h' (List.replicate u.tableSize.toNat
        (List.replicate u.collEngArraySize.toNat none)) →
      w.Books w' (HiHandle.ofSettings u p sizes lock : HiHandle δ).baseBlocks (arrayBlocks h') →
      Q (.ok h') w') :
    Runs E (lhiCreateEngArray (HiHandle.ofSettings u p sizes lock)) w Q := by
  have hpos : u.collEngArraySize.toNat ≠ 0 := fun h => hslots (UInt32.toNat_inj.mp h)
  unfold lhiCreateEngArray
  refine runs_bind.mpr (runs_xallocAlign_refused
    (fun _ w₁ hw₁ hr _ => hfail w₁ hw₁ hr.not_allocsSucceed) ?_)
  intro junk₁ w₁ hw₁ _ _ hm₁
  refine runs_bind.mpr (runs_xallocAlign_refused (fun _ w₂ hw₂ hr _ => ?_) ?_)
  · exact hfail w₂ (hw₁.trans hw₂) fun hs' => hr.not_allocsSucceed (hs'.mono hw₁)
  intro junk₂ w₂ hw₂ _ _ hm₂
  refine runs_bind.mpr (runs_xallocAlign_refused (fun _ w₃ hw₃ hr _ => ?_) ?_)
  · exact hfail w₃ (hw₁.trans (hw₂.trans hw₃)) fun hs' =>
      hr.not_allocsSucceed (hs'.mono (hw₁.trans hw₂))
  intro junk₃ w₃ hw₃ _ _ hm₃
  have hw := hw₁.trans (hw₂.trans hw₃)
  refine runs_bind.mpr (runs_initBuckets (fun w₄ hw₄ hs => ?_) fun cells w₄ hw₄ hlen' hall hm₄ => ?_)
  · exact hfail w₄ (hw.trans hw₄) fun hs' => hs (hs'.mono hw)
  rw [List.nil_append]
  replace hlen' : cells.length = u.tableSize.toNat := hlen'
  have hbooks := ((World.Books.take (L := (HiHandle.ofSettings u p sizes lock : HiHandle δ).baseBlocks)
    hm₁).trans (.take hm₂)).trans (.take hm₃) |>.trans (.takes hm₄ (.refl _))
  refine hdone _ w₄ (hw.trans hw₄) rfl ?_ (hbooks.perm (.append_left _ ((List.Perm.swap _ _ _).cons _)))
  have hcont : arrayContents (List.replicate u.tableSize.toNat
      (List.replicate u.collEngArraySize.toNat (none : Option (Stored δ)))) =
        List.replicate u.tableSize.toNat [] := by
    rw [arrayContents, List.map_replicate, List.reduceOption_replicate_none]
  refine ⟨by simp, by rw [List.length_replicate]; exact hlen', ?_, by simp, ?_, by simp, ?_, ?_, ?_,
    ?_, ?_⟩
  · intro b l hb
    have hlt : b < u.tableSize.toNat := by
      have := (List.getElem?_eq_some_iff.mp hb).1
      rwa [List.length_replicate] at this
    rw [List.getElem?_replicate_of_lt hlt] at hb
    cases hb
    have hb' : b < cells.length := hlen' ▸ hlt
    exact ⟨cells[b], List.getElem?_eq_getElem hb', hall _ (List.getElem_mem hb')⟩
  · rw [List.map_replicate, List.reduceOption_replicate_none]
    rfl
  · rw [List.map_replicate, List.length_replicate, UInt32.ofNat_toNat]
    rfl
  · rw [hcont, List.flatten_replicate_nil]
    rfl
  · rw [hcont]
    refine ⟨List.length_replicate, fun b l hb x hx => ?_⟩
    rw [(List.mem_replicate.mp (List.mem_of_getElem? hb)).2] at hx
    cases hx
  · intro l hl he
    rw [(List.mem_replicate.mp hl).2, List.replicate_eq_nil_iff] at he
    exact hpos he
  · intro l hl
    rw [(List.mem_replicate.mp hl).2, List.length_replicate]
    exact u.collEngArraySize.toNat_lt

theorem createEng_array {u : UserSettings} {p lock : Ptr} {sizes : Fresh} (he : u.collEng = .array) :
    createEng (HiHandle.ofSettings u p sizes lock : HiHandle δ) =
      lhiCreateEngArray (HiHandle.ofSettings u p sizes lock) := by
  unfold createEng
  rw [show (HiHandle.ofSettings u p sizes lock : HiHandle δ).collEng = .array from he]

theorem runs_hiCreate {s : HiInitSet} {u : UserSettings} (hs : lhiSetSanityCheck s = .ok u)
    (he : u.collEng = .array) (hslots : u.collEngArraySize ≠ 0)
    {Q : Except Int (HiHandle δ) → World → Prop}
    (hfail : ∀ w', w ≤ w' → ¬ w.AllocsSucceed → Q (.error hiErrSystem) w')
    (hdone : ∀ h' w', w ≤ w' → h'.toUserSettings = u →
      ArrayRep h' (List.replicate u.tableSize.toNat
        (List.replicate u.collEngArraySize.toNat none)) → Q (.ok h') w') :
    Runs E (hiCreate s) w Q := by
  unfold hiCreate lhiCreateVanillaHdnl createWith
  rw [hs]
  refine runs_bind.mpr (runs_bind.mpr (runs_xallocAlign (fun _ w₁ hw₁ _ hs _ => hfail w₁ hw₁ hs) ?_))
  intro junk₁ w₁ hw₁ _ _
  refine runs_bind.mpr (runs_xallocAlign (fun _ w₂ hw₂ _ hs _ => ?_) fun junk₂ w₂ hw₂ _ _ => ?_)
  · exact hfail w₂ (hw₁.trans hw₂) fun hs' => hs (hs'.mono hw₁)
  have hw := hw₁.trans hw₂
  refine runs_bind.mpr (runs_lhiPthreadLockInit (fun _ w₃ hw₃ hs => ?_) fun lock w₃ hw₃ _ => ?_)
  · exact hfail w₃ (hw.trans hw₃) fun hs' => hs (hs'.mono hw)
  have hw' := hw.trans hw₃
  dsimp only
  rw [createEng_array he]
  exact runs_lhiCreateEngArray hslots (fun w₄ hw₄ hs => hfail w₄ (hw'.trans hw₄)
    fun hs' => hs (hs'.mono hw')) fun h' w₄ hw₄ hu hr _ => hdone h' w₄ (hw'.trans hw₄) hu hr

end ArrayRep

end Hashish
