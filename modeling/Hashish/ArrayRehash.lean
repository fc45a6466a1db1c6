import Hashish.ArrayMoves
import Hashish.IteratorArrays

/-!
# Rehashing an array table

Rehashing an array table locks its mutex twice when it has come to the end, or when an insertion into
the new table fails. It keeps to the discipline when it stops for another reason.

* `unlocks_hiRehash_early`: there is no entry to move, or no memory for the first snapshot.
* `unlocks_hiRehash_later`: there is no memory for a later one, and all entries before it were moved.
-/

namespace Hashish

open Hashish.Lib

variable {δ : Type} {w w' : World} {h : HiHandle δ} {n : UInt32} {bs : List (List (Option (Stored δ)))}
  {u : UserSettings} {done : List Key}

/-! ## Where it stops -/

/-- No bucket of the array table has an allocated slot. -/
def HiHandle.NoSlots (h : HiHandle δ) : Prop :=
  ∀ b < h.tableSize.toNat, h.bucketArraySlotSize.cells[b]? = some 0

/-- Rehashing an array table stops before it moves an entry: there is none, or there is no memory for
the new table with its handle (`7 + n` requests), for the iterator, or for its first snapshot. -/
def HiHandle.StopsEarly (h : HiHandle δ) (n : UInt32) (w : World) : Prop :=
  h.NoSlots ∨ ¬ w.Serves (11 + n.toNat)

/-- The requests of a rehash before it takes the snapshot of bucket `c`. -/
def HiHandle.requestsBefore (h : HiHandle δ) (n : UInt32) (bs : List (List (Option (Stored δ))))
    (c : Nat) : Nat :=
  8 + n.toNat + (Engine.newSettings h n).bucketsRequests [] ((arrayContents bs).take c)

/-- Rehashing an array table moves the entries of the buckets before bucket `c`, and has no memory for
the snapshot of this one. -/
structure HiHandle.StopsAt (h : HiHandle δ) (n : UInt32) (w : World)
    (bs : List (List (Option (Stored δ)))) (c : Nat) : Prop where
  rep : ArrayRep h bs
  size : n ≠ 0
  slots : h.collEngArraySize ≠ 0
  filled : ∃ l, (arrayContents bs)[c]? = some l ∧ l ≠ []
  movable : ∀ p k q, (((arrayContents bs).take c).map keysOut).flatten = p ++ k :: q →
    (Engine.newSettings h n).Movable p k
  serves : w.Serves (h.requestsBefore n bs c)
  fails : ¬ w.Serves (h.requestsBefore n bs c + 3)

/-- Rehashing an array table stops, and does not come to its end. -/
def HiHandle.Stops (h : HiHandle δ) (n : UInt32) (w : World) : Prop :=
  h.StopsEarly n w ∨ ∃ bs c, h.StopsAt n w bs c

/-- Where it has stopped. -/
def HiHandle.Stopped (h : HiHandle δ) (n : UInt32) (w w' : World) : Prop :=
  (∃ m < 11 + n.toNat, w.Refused m w') ∨ (h.NoSlots ∧ w.Served (8 + n.toNat) w') ∨
    ∃ bs c, h.StopsAt n w bs c ∧ ∃ m < 3, w.Refused (h.requestsBefore n bs c + m) w'

/-! ## Creation -/

theorem allots_lhiCreateEngArray :
    Partial (lhiCreateEngArray h) w (Allots (3 + h.tableSize.toNat) w) := by
  have hinit : ∀ (slots n : Nat) (buckets : List (Block (HiBucketAObj δ))) (w : World),
      Partial (initBuckets slots n buckets) w (Allots n w) := by
    intro slots n
    induction n with
    | zero => exact fun buckets w => .inr ⟨buckets, rfl, .zero rfl⟩
    | succ n ih =>
      intro buckets w
      refine Runs.bind allots_xallocAlign fun r w₁ hw₁ h₁ => ?_
      rcases h₁ with ⟨e, rfl, m, hm, hr⟩ | ⟨fresh, rfl, hs⟩
      · exact allots_error (Nat.lt_of_lt_of_le hm (Nat.le_add_left 1 n)) hr
      · rw [Nat.add_comm n 1]
        exact (ih _ w₁).imp fun r w' h' => h'.add hs hw₁
  unfold lhiCreateEngArray
  refine Runs.bind allots_xallocAlign fun r w₁ hw₁ h₁ => ?_
  rcases h₁ with ⟨e, rfl, m, hm, hr⟩ | ⟨slotSize, rfl, hs₁⟩
  · exact allots_error (by omega) hr
  refine Runs.bind allots_xallocAlign fun r w₂ hw₂ h₂ => ?_
  rcases h₂ with ⟨e, rfl, m, hm, hr⟩ | ⟨slotMax, rfl, hs₂⟩
  · exact allots_error (by omega) (hs₁.refused hw₁ hr)
  have hs₂ := hs₁.trans hw₁ hs₂
  have hw₂ := hw₁.trans hw₂
  refine Runs.bind allots_xallocAlign fun r w₃ hw₃ h₃ => ?_
  rcases h₃ with ⟨e, rfl, m, hm, hr⟩ | ⟨array, rfl, hs₃⟩
  · exact allots_error (by omega) (hs₂.refused hw₂ hr)
  have hs₃ := hs₂.trans hw₂ hs₃
  have hw₃ := hw₂.trans hw₃
  refine Runs.bind (hinit _ _ _ w₃) fun r w₄ _ h₄ => ?_
  rcases h₄ with ⟨e, rfl, m, hm, hr⟩ | ⟨buckets, rfl, hs₄⟩
  · exact allots_error (Nat.add_lt_add_left hm _) (hs₃.refused hw₃ hr)
  · exact .inr ⟨_, rfl, hs₃.trans hw₃ hs₄⟩

theorem allots_createWith {u : UserSettings} {self : Ptr} (ha : arrayEngine u.collEng) :
    Partial (createWith u self : Prog (Except Int (HiHandle δ))) w
      (Allots (6 + u.tableSize.toNat) w) := by
  unfold createWith
  refine Runs.bind allots_xallocAlign fun r w₁ hw₁ h₁ => ?_
  rcases h₁ with ⟨e, rfl, m, hm, hr⟩ | ⟨sizes, rfl, hs₁⟩
  · exact allots_error (by omega) hr
  refine Runs.bind allots_lockInit fun r w₂ hw₂ h₂ => ?_
  rcases h₂ with ⟨e, rfl, m, hm, hr⟩ | ⟨lock, rfl, hs₂⟩
  · exact allots_error (by omega) (hs₁.refused hw₁ hr)
  have hs₂ := hs₁.trans hw₁ hs₂
  have hw₂ := hw₁.trans hw₂
  show Partial (createEng (HiHandle.ofSettings u self sizes lock : HiHandle δ)) w₂ _
  rw [createEng_arrayEngine ha]
  refine allots_lhiCreateEngArray.imp fun r w' h' => ?_
  rw [show 6 + u.tableSize.toNat = 1 + 2 + (3 + u.tableSize.toNat) by omega]
  exact h'.add hs₂ hw₂

/-- Creation of an array table. -/
theorem unlocks_createWith_array {self : Ptr} (ha : arrayEngine u.collEng) (hw : w.held = some []) :
    Partial (createWith u self : Prog (Except Int (HiHandle δ))) w fun r w' => w'.held = some [] ∧
      Allots (6 + u.tableSize.toNat) w r w' ∧ ∀ h, r = .ok h → u.collEngArraySize ≠ 0 →
        h.toUserSettings = u ∧ ArrayRep h (List.replicate u.tableSize.toNat
          (List.replicate u.collEngArraySize.toNat none)) := by
  have hready : LocksReady u 4 w := by
    intro he
    rw [he] at ha
    exact ha.elim
  have hrep : Partial (createWith u self : Prog (Except Int (HiHandle δ))) w fun r _ =>
      ∀ h, r = .ok h → u.collEngArraySize ≠ 0 → ArrayRep h (List.replicate u.tableSize.toNat
        (List.replicate u.collEngArraySize.toNat none)) := by
    by_cases hslots : u.collEngArraySize = 0
    · exact partial_iff.mpr fun _ _ _ _ _ hne => (hne hslots).elim
    refine Runs.bind (Q := fun _ _ => True) partial_trivial fun sizes w₁ _ _ => ?_
    cases sizes with
    | error e => exact fun h he => nomatch he
    | ok sizes =>
    refine Runs.bind (Q := fun _ _ => True) partial_trivial fun lock w₂ _ _ => ?_
    cases lock with
    | error e => exact fun h he => nomatch he
    | ok lock =>
    show Partial (createEng (HiHandle.ofSettings u self sizes lock : HiHandle δ)) w₂ _
    rw [createEng_arrayEngine ha]
    refine ArrayRep.runs_lhiCreateEngArray hslots (fun w₃ _ _ h he => nomatch he) ?_
    intro h' w₃ _ _ hr _ h he _
    cases he
    exact hr
  refine (((unlocks_createWith hw hready).and_returned (allots_createWith ha)).and_returned
    hrep).imp fun r w' h' => ?_
  obtain ⟨⟨⟨hheld, hset⟩, hallots⟩, hrep⟩ := h'
  exact ⟨hheld, hallots, fun h hr hslots => ⟨hset h hr, hrep h hr hslots⟩⟩

/-! ## Stopping early -/

/-- The first snapshot of an iterator. -/
theorem partial_hiIteratorCreate (ha : arrayEngine h.collEng) :
    Partial (hiIteratorCreate h) w fun r w' =>
      (∃ i, r = .ok i ∧ w.Serves 4 ∧ ¬ h.NoSlots) ∨
      (∃ e, r = .error e ∧ ((∃ m < 4, w.Refused m w') ∨ (h.NoSlots ∧ w.Served 1 w'))) := by
  have hloop : ∀ (n : Nat) (i : HiIterator δ) (w : World),
      Partial (getNextLoop lhiArrayBucketToArray h n i) w fun r w' =>
        (r.1 = 0 ∧ w.Serves 3 ∧ ∃ b < i.bucket + n, h.bucketArraySlotSize.cells[b]? ≠ some 0) ∨
        (r.1 ≠ 0 ∧ ∃ m < 3, w.Refused m w') ∨
        (r.1 ≠ 0 ∧ w'.requests = w.requests ∧
          ∀ b, i.bucket ≤ b → b < i.bucket + n → h.bucketArraySlotSize.cells[b]? = some 0) := by
    intro n
    induction n with
    | zero =>
      exact fun i w => .inr (.inr ⟨(by decide : hiErrNodata ≠ 0), rfl, fun b hb hlt => by omega⟩)
    | succ n ih =>
      intro i w
      refine Runs.bind partial_arraySnapshot fun r w₁ hw₁ h₁ => ?_
      obtain ⟨res, a⟩ := r
      rcases h₁ with ⟨rfl, hz, hreq⟩ | ⟨rfl, -, m, hm, hr⟩ | ⟨rfl, hne, hs⟩
      · refine (ih { i with bucket := i.bucket + 1, a := a } w₁).imp fun r w₂ h₂ => ?_
        have hsum : i.bucket + (n + 1) = i.bucket + 1 + n := by omega
        rw [hsum]
        rcases h₂ with ⟨h₀, hs, hb⟩ | ⟨h₀, m, hm, hr⟩ | ⟨h₀, hreq₂, hall⟩
        · exact .inl ⟨h₀, (World.Serves.of_requests hw₁ hreq).mp hs, hb⟩
        · refine .inr (.inl ⟨h₀, m, hm, ?_⟩)
          have hr' := (World.Served.zero hreq).refused hw₁ hr
          rwa [Nat.zero_add] at hr'
        · refine .inr (.inr ⟨h₀, hreq₂.trans hreq, fun b hb hlt => ?_⟩)
          rcases Nat.eq_or_lt_of_le hb with rfl | hb
          · exact hz
          · exact hall b hb hlt
      · exact .inr (.inl ⟨(by decide : hiErrSystem ≠ 0), m, hm, hr⟩)
      · exact .inl ⟨rfl, hs.serves, i.bucket, by omega, hne⟩
  have hmalloc : Partial malloc w fun r w' =>
      (r = none ∧ w.Refused 0 w') ∨ (∃ it, r = some it ∧ w.Served 1 w') :=
    runs_malloc_refused (fun _ _ hr => .inl ⟨rfl, hr⟩)
      fun _ _ _ hreq hblock _ => .inr ⟨_, rfl, .one hreq hblock⟩
  refine Runs.bind hmalloc fun r w₁ hw₁ h₁ => ?_
  rcases h₁ with ⟨rfl, hr⟩ | ⟨it, rfl, hs₁⟩
  · exact .inr ⟨_, rfl, .inl ⟨0, by decide, hr⟩⟩
  dsimp only
  rw [getNextBucket_array ha]
  refine Runs.bind (hloop _ _ w₁) fun r w₂ _ h₂ => ?_
  obtain ⟨res, i⟩ := r
  dsimp only [Nat.sub_zero, Nat.zero_add] at h₂ ⊢
  refine runs_ite.mpr ⟨fun hz => ?_, fun hne => runs_bind.mpr (runs_free fun w₃ _ hreq₃ => ?_)⟩
  · obtain ⟨-, hs₂, b, hb, hne⟩ := h₂.resolve_right (by simp [hz])
    exact .inl ⟨i, rfl, (hs₁.serves_add hw₁).mpr hs₂, fun hall => hne (hall b (by omega))⟩
  · refine .inr ⟨_, rfl, ?_⟩
    rcases h₂.resolve_left (fun hl => hne hl.1) with ⟨-, m, hm, hr⟩ | ⟨-, hreq₂, hall⟩
    · exact .inl ⟨1 + m, by omega, (hs₁.refused hw₁ hr).after hreq₃⟩
    · exact .inr ⟨fun b hb => hall b (Nat.zero_le b) (by omega), (hs₁.after hreq₂).after hreq₃⟩

/-- Rehashing an array table that stops early leaves everything as it was. -/
theorem unlocks_hiRehash_early (ha : arrayEngine h.collEng) (hw : w.held = some [])
    (hstop : h.StopsEarly n w) :
    Partial (hiRehash h n) w fun r w' => w'.held = some [] ∧ r.2 = h ∧ h.Stopped n w w' := by
  refine Runs.bind ((quiet_lhiCreateVanillaHdnl.locks w hw).and_returned allots_vanilla) ?_
  intro r w₁ hw₁ h₁
  obtain ⟨⟨hheld₁, -⟩, ⟨e, rfl, m, hm, hr⟩ | ⟨self, rfl, hs₁⟩⟩ := h₁
  · exact ⟨hheld₁, rfl, .inl ⟨m, by omega, hr⟩⟩
  refine Runs.bind (unlocks_createWith_array (u := { h.toUserSettings with tableSize := n }) ha hheld₁)
    fun r w₂ hw₂ h₂ => ?_
  obtain ⟨hheld₂, ⟨e, rfl, m, hm, hr⟩ | ⟨new, rfl, hs₂⟩, -⟩ := h₂
  · exact ⟨hheld₂, rfl, .inl ⟨1 + m, by dsimp only at hm; omega, hs₁.refused hw₁ hr⟩⟩
  have hs₂ := hs₁.trans hw₁ hs₂
  have hw₂ := hw₁.trans hw₂
  refine Runs.bind ((locks_hiIteratorCreate w₂ hheld₂).and_returned
    (partial_hiIteratorCreate ha)) fun r w₃ _ h₃ => ?_
  dsimp only at hs₂
  obtain ⟨⟨hheld₃, -⟩, ⟨i, rfl, hs₃, hslots⟩ | ⟨e, rfl, ⟨m, hm, hr⟩ | ⟨hslots, hs₃⟩⟩⟩ := h₃
  · refine absurd ?_ (hstop.resolve_left hslots)
    have hall := (hs₂.serves_add hw₂).mpr hs₃
    rwa [show 1 + (6 + n.toNat) + 4 = 11 + n.toNat by omega] at hall
  · exact ⟨hheld₃, rfl, .inl ⟨1 + (6 + n.toNat) + m, by omega, hs₂.refused hw₂ hr⟩⟩
  · refine ⟨hheld₃, rfl, .inr (.inl ⟨hslots, ?_⟩)⟩
    have hall := hs₂.trans hw₂ hs₃
    rwa [show 1 + (6 + n.toNat) + 1 = 8 + n.toNat by omega] at hall

/-! ## Stopping later -/

namespace Built

variable {new : HiHandle δ} {k : Key} {d : δ}

/-- There is memory for the copy of a key whose requests are served. -/
theorem keyServed (hb : Built u done new bs) (hs : w.Serves (u.moveRequests done k)) :
    new.KeyServed w k := by
  have hset := hb.settings
  subst hset
  intro n m slots hn hm hcell
  have hbucket : new.toUserSettings.bucket k < bs.length := by
    rw [← hb.rep.arrayLength]
    exact (List.getElem?_eq_some_iff.mp hcell).1
  have hl := List.getElem?_eq_getElem hbucket
  obtain ⟨hkeys, hslots⟩ := hb.length_bucket hl
  rw [hb.rep.size_of_bucket hl] at hn
  rw [hb.rep.max_of_bucket hl] at hm
  cases hn
  cases hm
  rw [UInt32.lt_iff_toNat_lt, UInt32.le_iff_toNat_le, hb.rep.toNat_size hl, hb.rep.toNat_max hl, hkeys,
    hslots]
  rw [UserSettings.moveRequests] at hs
  refine ⟨fun hlt _ => ?_, fun hle _ _ => ?_⟩
  · rwa [if_pos hlt] at hs
  · rwa [if_neg (Nat.not_lt.mpr hle)] at hs

/-- One move. -/
theorem unlocks_hiInsertWith {rehash : HiHandle δ → UInt32 → Prog (Int × HiHandle δ)}
    (hb : Built u done new bs) (ha : arrayEngine u.collEng) (hauto : u.rehashAuto = 0)
    (hu : u.tableSize ≠ 0) (hk : u.Movable done k) (hs : w.Serves (u.moveRequests done k))
    (hw : w.held = some []) :
    Partial (hiInsertWith rehash new k.bytes k.keylen d) w fun r w' => w'.held = some [] ∧
      r.1 = success ∧ w.Served (u.moveRequests done k) w' ∧ ∃ bs', Built u (done ++ [k]) r.2 bs' := by
  have ha' : arrayEngine new.collEng := by
    rwa [show new.collEng = u.collEng from (congrArg UserSettings.collEng hb.settings :)]
  have hauto' : new.rehashAuto = 0 := (congrArg UserSettings.rehashAuto hb.settings :).trans hauto
  unfold hiInsertWith
  rw [hiLookup_array ha']
  refine runs_bind.mpr (runs_ite.mpr ⟨fun hf => absurd hf (by decide), fun _ => ?_⟩)
  rw [doRehash, if_pos hauto']
  refine runs_bind.mpr (runs_pure.mpr ?_)
  rw [engineInsert_array ha']
  exact ((unlocks_lhiInsertArray hw (.inr (hb.keyServed hs))).and_returned
    (hb.partial_lhiInsertArray hu hk hs)).imp fun r w' h' => ⟨h'.1.1, h'.2⟩

end Built

section Loop

variable {lc : List (Stored δ)} {post : List (List (Stored δ))} (hr : ArrayRep h bs)
  (ha : arrayEngine h.collEng) (hlc : lc ≠ []) (hau : arrayEngine u.collEng)
  (hauto : u.rehashAuto = 0) (hu : u.tableSize ≠ 0)
include hr ha hlc hau hauto hu

/-- The loop moves all entries before the bucket `lc`, and stops there. -/
theorem unlocks_rehashLoop {fuel : Nat} {i : HiIterator δ} {new : HiHandle δ} {l : List (Stored δ)}
    {pre : List (List (Stored δ))} {bs' : List (List (Option (Stored δ)))} (hw : w.held = some [])
    (hi : Handing bs i l (pre ++ lc :: post)) (hnew : Built u done new bs')
    (hmov : ∀ p k q, keysLeft l pre = p ++ k :: q → u.Movable (done ++ p) k)
    (hs : w.Serves (u.requestsLeft done l pre)) (href : ¬ w.Serves (u.requestsLeft done l pre + 3)) :
    Partial (rehashLoop h fuel i new) w fun r w' => w'.held = some [] ∧ r.1 = hiErrSystem ∧
      r.2.2 ≠ none ∧ ∃ m < 3, w.Refused (u.requestsLeft done l pre + m) w' := by
  induction fuel generalizing i new l pre done bs' w with
  | zero => trivial
  | succ fuel ih =>
    rw [rehashLoop]
    refine Runs.bind ((locks_hiIteratorGetnext w hw).and_returned
      (hr.partial_hiIteratorGetnext ha hlc hi hs href)) fun r w₁ hw₁ h₁ => ?_
    obtain ⟨ret, next, i'⟩ := r
    obtain ⟨⟨hheld₁, -⟩, ⟨x, l', pre', c, rfl, hi', hkeys, hs₁, hcount⟩ | ⟨rfl, rfl, m, hm, hr⟩⟩ := h₁
    swap
    · exact ⟨hheld₁, rfl, Option.some_ne_none _, m, hm, hr⟩
    rw [hcount, Nat.add_assoc] at href
    rw [hcount] at hs ⊢
    have hs' := (hs₁.serves_add hw₁).mp hs
    have href' := mt (hs₁.serves_add hw₁).mpr href
    have hx : u.Movable done x.key := by
      have hfirst := hmov [] x.key _ hkeys
      rwa [List.append_nil] at hfirst
    have hserved : w₁.Serves (u.moveRequests done x.key) := fun j hj => hs' j (Nat.lt_add_right _ hj)
    refine Runs.bind (hnew.unlocks_hiInsertWith (d := x.data) hau hauto hu hx hserved hheld₁)
      fun r w₂ hw₂ h₂ => ?_
    obtain ⟨ret, new'⟩ := r
    obtain ⟨hheld₂, rfl, hs₂, bs'', hnew'⟩ := h₂
    refine runs_ite.mpr ⟨fun hne => absurd rfl hne, fun _ => ?_⟩
    rw [Nat.add_assoc] at href'
    refine (ih hheld₂ hi' hnew' (fun p k q hpq => ?_) ((hs₂.serves_add hw₂).mp hs')
      (mt (hs₂.serves_add hw₂).mpr href')).imp fun r w₃ h₃ => ?_
    · have hlater := hmov (x.key :: p) k q (by rw [hkeys, hpq, List.cons_append])
      rwa [List.append_cons] at hlater
    · obtain ⟨hheld₃, hret, hsome, m, hm, hr⟩ := h₃
      refine ⟨hheld₃, hret, hsome, m, hm, ?_⟩
      rw [Nat.add_assoc, Nat.add_assoc]
      exact hs₁.refused hw₁ (hs₂.refused hw₂ hr)

end Loop

/-- Rehashing an array table that stops later leaves everything as it was. -/
theorem unlocks_hiRehash_later {c : Nat} (ha : arrayEngine h.collEng) (hw : w.held = some [])
    (hstop : h.StopsAt n w bs c) :
    Partial (hiRehash h n) w fun r w' => w'.held = some [] ∧ r.2 = h ∧ h.Stopped n w w' := by
  obtain ⟨lc, hc, hlc⟩ := hstop.filled
  have hls : arrayContents bs = (arrayContents bs).take c ++ lc :: (arrayContents bs).drop (c + 1) := by
    obtain ⟨hlt, rfl⟩ := List.getElem?_eq_some_iff.mp hc
    rw [List.getElem_cons_drop, List.take_append_drop]
  have hcount : ∀ m, h.requestsBefore n bs c + m = 1 + (6 + n.toNat) +
      (1 + ((Engine.newSettings h n).bucketsRequests [] ((arrayContents bs).take c) + m)) := by
    intro m
    rw [HiHandle.requestsBefore]
    omega
  have hs : w.Serves (h.requestsBefore n bs c + 0) := hstop.serves
  have href := hstop.fails
  rw [hcount] at hs href
  -- Where the rehash ends.
  have hstopped : ∀ w', (∃ m < 3, w.Refused (h.requestsBefore n bs c + m) w') → h.Stopped n w w' :=
    fun w' hm => .inr (.inr ⟨bs, c, hstop, hm⟩)
  refine Runs.bind ((quiet_lhiCreateVanillaHdnl.locks w hw).and_returned allots_vanilla) ?_
  intro r w₁ hw₁ h₁
  obtain ⟨⟨hheld₁, -⟩, ⟨e, rfl, m, hm, hr⟩ | ⟨self, rfl, hs₁⟩⟩ := h₁
  · exact (hr.not_serves (by omega) hs).elim
  refine Runs.bind (unlocks_createWith_array (u := { h.toUserSettings with tableSize := n }) ha hheld₁)
    fun r w₂ hw₂ h₂ => ?_
  obtain ⟨hheld₂, ⟨e, rfl, m, hm, hr⟩ | ⟨new, rfl, hs₂⟩, hnew⟩ := h₂
  · exact ((hs₁.refused hw₁ hr).not_serves (by dsimp only at hm; omega) hs).elim
  have hs₂ : w.Served (1 + (6 + n.toNat)) w₂ := hs₁.trans hw₁ hs₂
  have hw₂ := hw₁.trans hw₂
  obtain ⟨hset, hrep⟩ := hnew new rfl hstop.slots
  refine Runs.bind ((locks_hiIteratorCreate w₂ hheld₂).and_returned
    (hstop.rep.partial_hiIteratorCreate ha hlc hls ((hs₂.serves_add hw₂).mp hs)
      (mt (hs₂.serves_add hw₂).mpr href))) fun r w₃ hw₃ h₃ => ?_
  obtain ⟨⟨hheld₃, -⟩, ⟨i, l, pre, rfl, hi, hs₃, hbuckets, hkeys⟩ | ⟨rfl, m, hm, hr⟩⟩ := h₃
  swap
  · refine ⟨hheld₃, rfl, hstopped w₃ ⟨m, hm, ?_⟩⟩
    rw [hcount]
    exact hs₂.refused hw₂ hr
  have hs₃ := hs₂.trans hw₂ hs₃
  have hw₃ := hw₂.trans hw₃
  have hleft : ∀ m, h.requestsBefore n bs c + m =
      1 + (6 + n.toNat) + 4 + ((Engine.newSettings h n).requestsLeft [] l pre + m) := by
    intro m
    rw [hcount, hbuckets]
    omega
  rw [← hcount, hleft] at hs href
  have hbuilt : Built (Engine.newSettings h n) [] { new with rehashAuto := 0 }
      (List.replicate n.toNat (List.replicate h.collEngArraySize.toNat none)) := by
    refine .nil ⟨hrep.arrayAddr, hrep.arrayLength, hrep.slots, hrep.sizeAddr, hrep.sizes, hrep.maxAddr,
      hrep.maxs, hrep.count, ⟨hrep.table.length, hrep.table.placed⟩, hrep.nonempty, hrep.fits⟩ ?_
    show { new.toUserSettings with rehashAuto := 0 } = _
    rw [hset]
    rfl
  refine Runs.bind (unlocks_rehashLoop (u := Engine.newSettings h n) hstop.rep ha hlc ha rfl hstop.size
    hheld₃ hi hbuilt (fun p k q hpq => hstop.movable p k q (hkeys.trans hpq))
    ((hs₃.serves_add hw₃).mp hs) (mt (hs₃.serves_add hw₃).mpr href)) fun r w₄ _ h₄ => ?_
  obtain ⟨ret, i, rebuilt⟩ := r
  obtain ⟨hheld₄, rfl, hsome, m, hm, hr⟩ := h₄
  obtain ⟨new', rfl⟩ := Option.ne_none_iff_exists'.mp hsome
  have hend : w.Refused (h.requestsBefore n bs c + m) w₄ := by
    rw [hleft]
    exact hs₃.refused hw₃ hr
  have hfree : Partial (hiIteratorFini i) w₄ fun _ w' => w'.requests = w₄.requests :=
    runs_bind.mpr (runs_lhiBucketArrayFree fun _ _ h₅ => runs_free fun _ _ h₆ => h₆.trans h₅)
  refine Runs.bind ((quiet_hiIteratorFini.locks w₄ hheld₄).and_returned hfree) fun _ w₅ _ h₅ => ?_
  refine runs_ite.mpr ⟨fun _ => ?_, fun hne => absurd (by decide) hne⟩
  exact ⟨h₅.1.1, rfl, hstopped w₅ ⟨m, hm, hend.after h₅.2⟩⟩

/-- Three keys in one bucket and a fourth in the next. Moving the three takes eight requests with the
snapshot, and the second snapshot fails. -/
example :
    ∃ (h t : HiHandle String) (w₁ w₂ w₃ : World) (rs : List (Result String)),
      (hiCreate { oneArray 1 with
        tableSize := 2, hashFunc := some ⟨0, fun k _ => (k.headD 0).toUInt32⟩ }).run
          (World.startFailing 33) = .ok (.ok h, w₁) ∧
      (Prog.calls MapOp.call [.insert ⟨[1, 0], by decide⟩ "a", .insert ⟨[2, 0], by decide⟩ "b",
        .insert ⟨[0, 1], by decide⟩ "c", .insert ⟨[0, 3], by decide⟩ "d"] h).run w₁ =
          .ok ((rs, t), w₂) ∧
      (hiRehash t 2).run w₂ = .ok ((hiErrSystem, t), w₃) ∧
      w₃.held = some [] ∧ w₃.requests = w₂.requests + (8 + 2 + 8) + 1 :=
  ⟨_, _, _, _, _, _, rfl, rfl, rfl, rfl, rfl⟩

theorem unlocks_hiRehash_array (ha : arrayEngine h.collEng) (hw : w.held = some [])
    (hstop : h.Stops n w) :
    Partial (hiRehash h n) w fun r w' => w'.held = some [] ∧ r.2 = h ∧ h.Stopped n w w' := by
  rcases hstop with hstop | ⟨bs, c, hstop⟩
  · exact unlocks_hiRehash_early ha hw hstop
  · exact unlocks_hiRehash_later ha hw hstop

end Hashish
