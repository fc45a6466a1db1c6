import Hashish.ArrayLayout
import Hashish.Iteration

/-!
# Snapshots of the array engine

`lhi_array_bucket_to_array` reads the first `slot_size` slots of a bucket. These are the
allocated ones when the bucket is packed: no free slot lies before an allocated one.

* `ArrayRep.iterable`: the snapshot of a packed bucket holds its pairs. In any other
  snapshot the last pair was not written.
-/

namespace Hashish

open Hashish.Lib

variable {δ : Type} {F : Fault → Prop} {w : World} {h : HiHandle δ}
  {bs : List (List (Option (Stored δ)))} {b : Nat} {l : List (Option (Stored δ))}

/-- The allocated slots of the bucket come first. -/
def Packed (l : List (Option (Stored δ))) : Prop := none ∉ l.take l.reduceOption.length

theorem map_some_reduceOption (hl : none ∉ l) : l.reduceOption.map some = l := by
  induction l with
  | nil => rfl
  | cons x l ih =>
    obtain ⟨hx, hrest⟩ := not_or.mp (mt List.mem_cons.mpr hl)
    cases x with
    | none => exact (hx rfl).elim
    | some x => rw [List.reduceOption_cons_of_some, List.map_cons, ih hrest]

/-- The slots of a bucket are packed when the pairs fill the first of them. -/
theorem packed_iff : Packed l ↔ l.take l.reduceOption.length = l.reduceOption.map some := by
  constructor
  · intro hp
    have hall := map_some_reduceOption hp
    have hlen : (l.take l.reduceOption.length).reduceOption.length = l.reduceOption.length := by
      rw [← List.length_map (f := some), hall, List.length_take]
      exact Nat.min_eq_left l.reduceOption_length_le
    have hsub : (l.take l.reduceOption.length).reduceOption.Sublist l.reduceOption :=
      List.Sublist.filterMap id (List.take_sublist _ _)
    rw [← hall, hsub.eq_of_length hlen]
  · intro he hm
    rw [he] at hm
    obtain ⟨x, -, hx⟩ := List.mem_map.mp hm
    cases hx

/-- The last pair of the snapshot was not written. -/
def Unwritten (a : BucketArray δ) : Prop :=
  a.data.addr ≠ none ∧ a.data.cells[sizeT (a.nmemb + (2 ^ 64 - 1))]? = some none

theorem Unwritten.runs_handOut {i : HiIterator δ} (ha : Unwritten i.a) (hF : F .uninitialised)
    {Q : Item δ × HiIterator δ → World → Prop} : Runs F i.handOut w Q := by
  unfold HiIterator.handOut Block.loadWritten
  exact runs_bind.mpr (runs_bind.mpr (Block.runs_load ha.1 ha.2 hF))

/-! ## The copy loop -/

/-- Slots that are all allocated are copied in turn. -/
theorem SlotsShow.runs_copyPacked {blk : Block (HiBucketAObj δ)} {s r : List (Stored δ)}
    {t : List (Option (Stored δ))} {a : BucketArray δ} {Q : BucketArray δ → World → Prop}
    (hb : SlotsShow blk (s.map some ++ (r.map some ++ t))) (haddr : h.bucketArray.addr ≠ none)
    (hblk : h.bucketArray.cells[b]? = some blk)
    (ha : a.Shows (s.map some ++ List.replicate r.length none))
    (hQ : ∀ a', a'.nmemb = a.nmemb → a'.Shows ((s ++ r).map some) → Q a' w) :
    Runs F (copySlots h b r.length s.length s.length a) w Q := by
  induction r generalizing s a with
  | nil => exact hQ a rfl (by simpa using ha)
  | cons x r ih =>
    have hx : (s.map some ++ ((x :: r).map some ++ t))[s.length]? = some (some x) := by simp
    rw [List.length_cons, copySlots]
    refine hb.runs_written haddr hblk hx nofun ?_
    rintro y ⟨⟩
    show Runs F (do
      let ds ← a.data.store s.length (some x.item.data)
      let ks ← a.keys.store s.length (some x.item.key)
      let ls ← a.keysLength.store s.length (some x.item.keylen)
      copySlots h b r.length (s.length + 1) (s.length + 1)
        { a with data := ds, keys := ks, keysLength := ls }) w Q
    have hput := ha.runs_put (E := F) (w := w) (i := s.length) (x := x)
      (Q := fun a' w => Runs F (copySlots h b r.length (s.length + 1) (s.length + 1) a') w Q)
      (by simp) fun a' ha' hn => ?_
    · simpa only [BucketArray.put, runs_bind, runs_pure] using hput
    · have hset : (s.map some ++ List.replicate (x :: r).length none).set s.length (some x) =
          (s ++ [x]).map some ++ List.replicate r.length none := by
        rw [List.set_append_right _ _ (by simp)]
        simp [List.replicate_succ]
      rw [hset] at ha'
      have := ih (s := s ++ [x]) (by simpa using hb) ha' fun a'' hn' ha'' =>
        hQ a'' (hn'.trans hn) (by simpa using ha'')
      rwa [List.length_append, List.length_singleton] at this

/-- The arrays of a snapshot have `m` cells, and the data from cell `j` on was not written. -/
structure Unfilled (a : BucketArray δ) (m j : Nat) : Prop where
  dataAddr : a.data.addr ≠ none
  keysAddr : a.keys.addr ≠ none
  lengthAddr : a.keysLength.addr ≠ none
  data : a.data.cells.length = m
  keys : a.keys.cells.length = m
  keysLength : a.keysLength.cells.length = m
  rest : ∀ q, j ≤ q → q < m → a.data.cells[q]? = some none

/-- Slots some of which are free leave the end of the snapshot unwritten. -/
theorem SlotsShow.runs_copySlots {blk : Block (HiBucketAObj δ)} {s r t : List (Option (Stored δ))}
    {a : BucketArray δ} {m j : Nat} {Q : BucketArray δ → World → Prop}
    (hb : SlotsShow blk (s ++ (r ++ t))) (haddr : h.bucketArray.addr ≠ none)
    (hblk : h.bucketArray.cells[b]? = some blk) (ha : Unfilled a m j)
    (hm : s.length + r.length ≤ m) (hj : j ≤ s.length)
    (hQ : ∀ a', a'.nmemb = a.nmemb → Unfilled a' m (j + r.reduceOption.length) → Q a' w) :
    Runs F (copySlots h b r.length s.length j a) w Q := by
  induction r generalizing s a j with
  | nil => exact hQ a rfl (by simpa using ha)
  | cons x r ih =>
    rw [List.length_cons] at hm
    have hx : (s ++ (x :: r ++ t))[s.length]? = some x := by simp
    have hb' : SlotsShow blk (s ++ [x] ++ (r ++ t)) := by simpa using hb
    have hlen : (s ++ [x]).length = s.length + 1 := by simp
    rw [List.length_cons, copySlots]
    refine hb.runs_written haddr hblk hx ?_ ?_
    · rintro rfl
      rw [List.reduceOption_cons_of_none] at hQ
      have := ih hb' ha (by omega) (by omega) hQ
      rwa [hlen] at this
    · rintro y rfl
      show Runs F (do
        let ds ← a.data.store j (some y.entry.data)
        let ks ← a.keys.store j (some y.entry.key)
        let ls ← a.keysLength.store s.length (some y.entry.keyLen)
        copySlots h b r.length (s.length + 1) (j + 1)
          { a with data := ds, keys := ks, keysLength := ls }) w Q
      refine runs_bind.mpr (Block.runs_store ha.dataAddr (by rw [ha.data]; omega) ?_)
      refine runs_bind.mpr (Block.runs_store ha.keysAddr (by rw [ha.keys]; omega) ?_)
      refine runs_bind.mpr (Block.runs_store ha.lengthAddr (by rw [ha.keysLength]; omega) ?_)
      rw [List.reduceOption_cons_of_some, List.length_cons] at hQ
      let a₁ : BucketArray δ := { a with
        data := { a.data with cells := a.data.cells.set j (some y.entry.data) }
        keys := { a.keys with cells := a.keys.cells.set j (some y.entry.key) }
        keysLength := { a.keysLength with
          cells := a.keysLength.cells.set s.length (some y.entry.keyLen) } }
      have ha₁ : Unfilled a₁ m (j + 1) := by
        refine ⟨ha.dataAddr, ha.keysAddr, ha.lengthAddr, ?_, ?_, ?_, fun q hjq hq => ?_⟩
        · simp [a₁, ha.data]
        · simp [a₁, ha.keys]
        · simp [a₁, ha.keysLength]
        · show (a.data.cells.set j _)[q]? = _
          rw [List.getElem?_set_ne (Nat.ne_of_lt hjq)]
          exact ha.rest q (Nat.le_of_succ_le hjq) hq
      have := ih hb' ha₁ (by omega) (by omega) fun a' hn ha' =>
        hQ a' hn (by rwa [Nat.add_right_comm] at ha')
      rwa [hlen] at this

/-! ## Snapshots -/

namespace ArrayRep

/-- The snapshot of a bucket. -/
theorem runs_lhiArrayBucketToArray {Q : Int × BucketArray δ → World → Prop} {a : BucketArray δ}
    (hr : ArrayRep h bs) (hb : bs[b]? = some l)
    (hempty : l.reduceOption = [] → ∀ w', w ≤ w' → Q (hiErrNodata, a) w')
    (hfail : ∀ w', w ≤ w' → ¬ w.AllocsSucceed → Q (hiErrSystem, a) w')
    (hpacked : l.reduceOption ≠ [] → Packed l → ∀ a' w', w ≤ w' →
      a'.nmemb = l.reduceOption.length → a'.Shows (l.reduceOption.map some) → Q (0, a') w')
    (hholes : l.reduceOption ≠ [] → ¬ Packed l → ∀ a' w', w ≤ w' →
      a'.nmemb = l.reduceOption.length → Unwritten a' → Q (0, a') w') :
    Runs F (lhiArrayBucketToArray h b a) w Q := by
  obtain ⟨blk, hblk, hslots⟩ := hr.slots b l hb
  have hsize := hr.toNat_size hb
  have hlt : l.reduceOption.length < 2 ^ 32 := hsize ▸ (UInt32.ofNat _).toNat_lt
  have hw₀ : w ≤ w.log (.lock h.mutexLock) := w.le_log _
  unfold lhiArrayBucketToArray
  rw [runs_bind, runs_mutexLock]
  refine runs_bind.mpr (Block.runs_load hr.sizeAddr (hr.size_of_bucket hb) ?_)
  refine runs_ite.mpr ⟨fun hz => ?_, fun hz => ?_⟩
  · have h₀ : l.reduceOption.length = 0 := by
      rw [← hsize, hz]
      rfl
    exact hempty (List.length_eq_zero_iff.mp h₀) _ (hw₀.trans (World.le_log _ _))
  have h₀ : l.reduceOption.length ≠ 0 := fun h₀ => hz (by rw [h₀]; rfl)
  have hne : l.reduceOption ≠ [] := mt List.length_eq_zero_iff.mpr h₀
  rw [hsize, runs_bind]
  refine runs_lhiBucketArrayAlloc h₀ hlt (fun m w₁ hw₁ _ hs => ?_)
    fun a₁ w₁ hw₁ _ ha₁ hn₁ => ?_
  · dsimp only
    rw [if_pos (show hiErrSystem ≠ 0 by decide)]
    exact hfail _ (hw₀.trans (hw₁.trans (World.le_log _ _))) hs.of_log.not_allocsSucceed
  dsimp only
  rw [if_neg (not_not_intro rfl), runs_bind]
  have hw₂ : w ≤ w₁.log (.unlock h.mutexLock) := hw₀.trans (hw₁.trans (World.le_log _ _))
  by_cases hp : Packed l
  · have hsplit : ([] : List (Stored δ)).map some ++ (l.reduceOption.map some ++
        l.drop l.reduceOption.length) = l := by
      rw [← packed_iff.mp hp, List.map_nil, List.nil_append, List.take_append_drop]
    refine SlotsShow.runs_copyPacked (s := []) (hsplit ▸ hslots) hr.arrayAddr hblk ha₁
      fun a₂ hn₂ ha₂ => ?_
    rw [runs_bind, runs_mutexUnlock, runs_pure]
    exact hpacked hne hp a₂ _ hw₂ (hn₂.trans hn₁) ha₂
  · have hsplit : [] ++ (l.take l.reduceOption.length ++ l.drop l.reduceOption.length) = l := by
      rw [List.nil_append, List.take_append_drop]
    have htake : (l.take l.reduceOption.length).length = l.reduceOption.length := by
      rw [List.length_take]
      exact Nat.min_eq_left l.reduceOption_length_le
    have hfresh : Unfilled a₁ l.reduceOption.length 0 := by
      refine ⟨ha₁.dataAddr, ha₁.keysAddr, ha₁.lengthAddr, by simp [ha₁.data], by simp [ha₁.keys],
        by simp [ha₁.keysLength], fun q _ hq => ?_⟩
      rw [ha₁.data, List.getElem?_map, List.getElem?_replicate_of_lt hq]
      rfl
    have hcopy := SlotsShow.runs_copySlots (F := F) (w := w₁) (s := [])
      (Q := fun a' w' => Runs F (do
        lhiPthreadMutexUnlock h.mutexLock
        pure ((0 : Int), a')) w' Q)
      (hsplit.symm ▸ hslots) hr.arrayAddr hblk hfresh (by rw [htake]; simp) (Nat.le_refl 0)
      fun a₂ hn₂ ha₂ => ?_
    · rwa [htake] at hcopy
    -- Fewer pairs were copied than slots were read.
    have hfew : (l.take l.reduceOption.length).reduceOption.length < l.reduceOption.length := by
      have hlt := List.reduceOption_length_lt_iff.mpr (not_not.mp hp)
      rwa [htake] at hlt
    rw [runs_bind, runs_mutexUnlock, runs_pure]
    refine hholes hne hp a₂ _ hw₂ (hn₂.trans hn₁) ⟨ha₂.dataAddr, ?_⟩
    have hlast : sizeT (a₂.nmemb + (2 ^ 64 - 1)) = l.reduceOption.length - 1 := by
      rw [hn₂, hn₁, sizeT]
      omega
    rw [hlast]
    exact ha₂.rest _ (by omega) (by omega)

/-- The relation between the slots of a bucket and its snapshot. -/
def PackedSnap (l : List (Option (Stored δ))) (s : List (Stored δ)) : Prop :=
  Packed l ∧ s = l.reduceOption ∧ l.length < 2 ^ 32

/-- The iterators of an array table. A snapshot of a bucket that is not packed is bad. -/
theorem iterable (hr : ArrayRep h bs) (he : h.collEng = .array)
    (hF : (∃ l ∈ bs, ¬ Packed l) → F .uninitialised) :
    Iterable F lhiArrayBucketToArray h w PackedSnap
      (fun a => (∃ l ∈ bs, ¬ Packed l) ∧ Unwritten a) bs where
  length := by
    have hlen := hr.table.length
    rwa [arrayContents, List.length_map] at hlen
  next err i := by
    simp only [getNextBucket, he]
    rfl
  bad hbad := hbad.2.runs_handOut (hF hbad.1)
  snapshot {w'} hw {b l} hl a := by
    refine hr.runs_lhiArrayBucketToArray hl (fun hnil w'' _ => ?_) (fun w'' _ hs => ?_)
      (fun hne hp a' w'' _ hn ha => ?_) fun hne hp a' w'' _ hn ha => ?_
    · refine .inl ⟨rfl, ?_, hnil.symm, hr.fits l (List.mem_of_getElem? hl)⟩
      rw [Packed, hnil]
      exact List.not_mem_nil
    · exact .inr (.inl ⟨rfl, hs⟩)
    · exact .inr (.inr (.inl ⟨rfl, l.reduceOption, hne, hn, ha, hp, rfl,
        hr.fits l (List.mem_of_getElem? hl)⟩))
    · refine .inr (.inr (.inr ⟨rfl, ?_, ⟨l, List.mem_of_getElem? hl, hp⟩, ha⟩))
      rw [hn]
      exact mt List.length_eq_zero_iff.mp hne

end ArrayRep

end Hashish
