import Hashish.ArrayIteration
import Hashish.LockOperations
import Hashish.Rehash

/-!
# Moving the entries of an array table

`hi_rehash` inserts the entries of an array table into a new one, in the order of the iterator. How
many requests a move makes follows from the keys moved before it.

* `Built.partial_lhiInsertArray`: a move whose requests are served succeeds.
* `ArrayRep.partial_hiIteratorGetnext`: the iterator is at the next entry, or has no memory for the
  snapshot of a bucket.
-/

namespace Hashish

open Hashish.Lib

variable {δ : Type} {E : Fault → Prop} {w w' : World} {h : HiHandle δ} {u : UserSettings}
  {done : List Key} {k : Key}

/-! ## The new table -/

/-- The slots of a bucket of at first `s` slots after `n` insertions. -/
def slotsFor (s : Nat) : Nat → Nat
  | 0 => s
  | n + 1 => if n < slotsFor s n then slotsFor s n else 2 * slotsFor s n

namespace UserSettings

/-- How many of the keys `done` share the bucket of `k`. -/
def keysBeside (u : UserSettings) (done : List Key) (k : Key) : Nat :=
  done.countP fun q => u.bucket q = u.bucket k

/-- The slots of the bucket of `k` after the insertion of the keys `done`. -/
def slotsBeside (u : UserSettings) (done : List Key) (k : Key) : Nat :=
  slotsFor u.collEngArraySize.toNat (u.keysBeside done k)

/-- The insertion of `k` after the keys `done` finds no equal key, and a bucket that has a free slot or
can double. -/
def Movable (u : UserSettings) (done : List Key) (k : Key) : Prop :=
  (u.collEng = .array → ∀ q ∈ done, u.bucket q = u.bucket k → ¬ u.keyCmp.same k q) ∧
    (u.keysBeside done k < u.slotsBeside done k ∨ u.slotsBeside done k < 2 ^ 31)

/-- The requests of this insertion: the copy of the key, and the slots of a bucket that doubles. -/
def moveRequests (u : UserSettings) (done : List Key) (k : Key) : Nat :=
  if u.keysBeside done k < u.slotsBeside done k then 1 else 2

end UserSettings

/-- The table with the settings `u` after the insertion of the keys `done`. -/
structure Built (u : UserSettings) (done : List Key) (h : HiHandle δ)
    (bs : List (List (Option (Stored δ)))) : Prop where
  rep : ArrayRep h bs
  settings : h.toUserSettings = u
  keys : ∀ (b : Nat) (l : List (Option (Stored δ))), bs[b]? = some l →
    (l.reduceOption.map Stored.key).Perm (done.filter fun q => u.bucket q = b)
  slots : ∀ l ∈ bs, l.length = slotsFor u.collEngArraySize.toNat l.reduceOption.length

namespace Built

variable {bs : List (List (Option (Stored δ)))} {l : List (Option (Stored δ))}

/-- A new table. -/
theorem nil (hr : ArrayRep h (List.replicate u.tableSize.toNat
    (List.replicate u.collEngArraySize.toNat none))) (hu : h.toUserSettings = u) :
    Built u [] h (List.replicate u.tableSize.toNat
      (List.replicate u.collEngArraySize.toNat none)) := by
  refine ⟨hr, hu, fun b l hb => ?_, fun l hl => ?_⟩
  · rw [(List.mem_replicate.mp (List.mem_of_getElem? hb)).2, List.reduceOption_replicate_none]
    exact .nil
  · rw [(List.mem_replicate.mp hl).2, List.reduceOption_replicate_none, List.length_replicate]
    rfl

/-- How many pairs and slots the bucket of a key has. -/
theorem length_bucket (hb : Built u done h bs) (hl : bs[u.bucket k]? = some l) :
    l.reduceOption.length = u.keysBeside done k ∧ l.length = u.slotsBeside done k := by
  have hkeys : l.reduceOption.length = u.keysBeside done k := by
    have hlen := (hb.keys _ l hl).length_eq
    rwa [List.length_map, ← List.countP_eq_length_filter] at hlen
  refine ⟨hkeys, ?_⟩
  rw [hb.slots l (List.mem_of_getElem? hl), hkeys]
  rfl

theorem moveRequests_eq (hb : Built u done h bs) (hl : bs[u.bucket k]? = some l) {n : Nat}
    (hn : ArrayRep.Blocks l n) : u.moveRequests done k = n + 1 := by
  obtain ⟨hkeys, hslots⟩ := hb.length_bucket hl
  rw [UserSettings.moveRequests, ← hkeys, ← hslots]
  rcases hn with ⟨hfree, rfl⟩ | ⟨hfull, rfl⟩
  · exact if_pos (List.reduceOption_length_lt_iff.mpr hfree)
  · exact if_neg fun hlt => hfull (List.reduceOption_length_lt_iff.mp hlt)

/-- The table after one more insertion. -/
theorem concat (hb : Built u done h bs) (hl : bs[u.bucket k]? = some l) {h' : HiHandle δ}
    {x : Stored δ} {p q : List (Option (Stored δ))} (hx : x.key = k)
    (hpq : ArrayRep.grown l = p ++ none :: q) (hu : h'.toUserSettings = u)
    (hr : ArrayRep h' (bs.set (u.bucket k) (p ++ some x :: q))) :
    Built u (done ++ [k]) h' (bs.set (u.bucket k) (p ++ some x :: q)) := by
  have hperm : (p ++ some x :: q).reduceOption.Perm (x :: l.reduceOption) := by
    rw [← ArrayRep.reduceOption_grown l, hpq]
    exact reduceOption_split
  refine ⟨hr, hu, fun b m hm => ?_, fun m hm => ?_⟩
  · rw [List.filter_append]
    by_cases hbk : u.bucket k = b
    · subst hbk
      rw [List.getElem?_set_self (List.getElem?_eq_some_iff.mp hl).1] at hm
      cases hm
      rw [List.filter_cons_of_pos (by simp), List.filter_nil]
      refine (hperm.map Stored.key).trans (.trans ?_ (List.perm_append_singleton _ _).symm)
      exact hx ▸ (hb.keys _ l hl).cons _
    · rw [List.getElem?_set_ne hbk] at hm
      rw [List.filter_cons_of_neg (by simpa using hbk), List.filter_nil, List.append_nil]
      exact hb.keys b m hm
  · rcases List.mem_or_eq_of_mem_set hm with hm | rfl
    · exact hb.slots m hm
    have hlen : (p ++ some x :: q).length = (ArrayRep.grown l).length := by simp [hpq]
    rw [hlen, hperm.length_eq, List.length_cons, slotsFor, ← hb.slots l (List.mem_of_getElem? hl),
      ArrayRep.grown]
    split
    · rfl
    · rw [List.length_append, List.length_replicate, Nat.two_mul]

/-- A key that can be moved is not found. -/
theorem partial_lhiGetArray (hb : Built u done h bs) (hu : u.tableSize ≠ 0) (hk : u.Movable done k) :
    Partial (lhiGetArray h k.bytes k.keylen) w fun r w' =>
      r.status ≠ success ∧ w'.requests = w.requests := by
  refine Runs.and_returned ?_ requests_lhiGetArray
  obtain ⟨hr, rfl, hkeys, -⟩ := hb
  by_cases he : h.collEng = .array
  · obtain ⟨l, hl⟩ := hr.exists_bucket hu k
    refine (hr.runs_lhiGetArray he hu hl).imp fun r w' h' => ?_
    have hnone : h.keyCmp.find l.reduceOption k = none := by
      refine KeyCmp.find_eq_none.mpr fun x hx => ?_
      have hmem := (hkeys _ l hl).mem_iff.mp (List.mem_map_of_mem hx)
      rw [List.mem_filter, decide_eq_true_iff] at hmem
      exact hk.1 he x.key hmem.1 hmem.2
    rw [h'.1, hnone]
    exact (by decide : hiErrNokey ≠ success)
  · unfold lhiGetArray
    rw [runs_bind, runs_bucketOf hu]
    split
    · rename_i he'
      exact (he he').elim
    · exact (by decide : hiErrNokey ≠ success)
    · exact (by decide : hiErrNokey ≠ success)
    · exact (by decide : hiErrNokey ≠ success)
    · exact (by decide : hiErrInternal ≠ success)

/-- A move whose requests are served succeeds. -/
theorem partial_lhiInsertArray {d : δ} (hb : Built u done h bs) (hu : u.tableSize ≠ 0)
    (hk : u.Movable done k) (hs : w.Serves (u.moveRequests done k)) :
    Partial (lhiInsertArray h k.bytes k.keylen d) w fun r w' => r.1 = success ∧
      w.Served (u.moveRequests done k) w' ∧ ∃ bs', Built u (done ++ [k]) r.2 bs' := by
  have hget := hb.partial_lhiGetArray (w := w) hu hk
  have hset := hb.settings
  subst hset
  obtain ⟨l, hl⟩ := hb.rep.exists_bucket hu k
  obtain ⟨hkeys, hslots⟩ := hb.length_bucket hl
  have hpos : 0 < h.toUserSettings.moveRequests done k := by
    rw [UserSettings.moveRequests]
    split <;> decide
  refine runs_bind.mpr ((runs_bucketOf hu k).mpr (Runs.bind hget fun found w₁ hw₁ h₁ => ?_))
  obtain ⟨hfound, hreq⟩ := h₁
  rw [if_neg hfound]
  have hs₁ := (World.Serves.of_requests hw₁ hreq).mpr hs
  refine hb.rep.runs_lhiInsertArraySlot hl (fun _ w₂ _ hr => (hr.not_serves hpos hs₁).elim) ?_ ?_ ?_
  · intro hfull hlen h' w₂ _ _ _
    rcases hk.2 with hlt | hlt
    · rw [← hkeys, ← hslots] at hlt
      exact (hfull (List.reduceOption_length_lt_iff.mp hlt)).elim
    · exact absurd hlen (Nat.not_le.mpr (hslots ▸ hlt))
  · intro n h' w₂ _ hn hr _ _ _
    rw [hb.moveRequests_eq hl hn] at hs₁
    exact (hr.not_serves (Nat.lt_succ_self n) hs₁).elim
  · intro x p q n h' w₂ _ hn hserved hx hpq hu' hr' _
    refine ⟨rfl, ?_, _, hb.concat hl (congrArg Prod.fst hx) hpq hu' hr'⟩
    rw [hb.moveRequests_eq hl hn]
    have hall := (World.Served.zero hreq).trans hw₁ hserved
    rwa [Nat.zero_add] at hall

end Built

/-! ## The old table -/

/-- The keys of a bucket in the order in which an iterator hands them out. -/
def keysOut (l : List (Stored δ)) : List Key := (l.map Stored.key).reverse

@[simp] theorem keysOut_nil : keysOut ([] : List (Stored δ)) = [] := rfl

@[simp] theorem keysOut_concat (l : List (Stored δ)) (x : Stored δ) :
    keysOut (l ++ [x]) = x.key :: keysOut l := by
  simp [keysOut]

/-- The keys to be moved when the pairs `l` of a bucket are left, and the buckets `ls`. -/
def keysLeft (l : List (Stored δ)) (ls : List (List (Stored δ))) : List Key :=
  keysOut l ++ (ls.map keysOut).flatten

namespace UserSettings

/-- The requests for the insertion of the keys `ks` after the keys `done`. -/
def keysRequests (u : UserSettings) : List Key → List Key → Nat
  | _, [] => 0
  | done, k :: ks => u.moveRequests done k + keysRequests u (done ++ [k]) ks

/-- The requests for the snapshots of the buckets `ls`, three for each that is not empty, and for the
insertion of their keys. -/
def bucketsRequests (u : UserSettings) : List Key → List (List (Stored δ)) → Nat
  | _, [] => 0
  | done, l :: ls => (if l = [] then 0 else 3) +
      (u.keysRequests done (keysOut l) + bucketsRequests u (done ++ keysOut l) ls)

/-- The requests when the pairs `l` of a bucket are left, and the buckets `ls`. -/
def requestsLeft (u : UserSettings) (done : List Key) (l : List (Stored δ))
    (ls : List (List (Stored δ))) : Nat :=
  u.keysRequests done (keysOut l) + u.bucketsRequests (done ++ keysOut l) ls

theorem requestsLeft_concat (u : UserSettings) (done : List Key) (l : List (Stored δ)) (x : Stored δ)
    (ls : List (List (Stored δ))) : u.requestsLeft done (l ++ [x]) ls =
      u.moveRequests done x.key + u.requestsLeft (done ++ [x.key]) l ls := by
  simp [requestsLeft, keysRequests, Nat.add_assoc]

theorem requestsLeft_nil (u : UserSettings) (done : List Key) (ls : List (List (Stored δ))) :
    u.requestsLeft done [] ls = u.bucketsRequests done ls := by
  simp [requestsLeft, keysRequests]

end UserSettings

section OldTable

variable {bs : List (List (Option (Stored δ)))} {i : HiIterator δ} {l lc : List (Stored δ)}
  {ls pre post : List (List (Stored δ))}

/-- The iterator stands before the buckets `ls`. Of its snapshot the pairs `l` are left, unless the last
of them was not written. -/
structure Handing (bs : List (List (Option (Stored δ)))) (i : HiIterator δ) (l : List (Stored δ))
    (ls : List (List (Stored δ))) : Prop where
  next : (arrayContents bs).drop (i.bucket + 1) = ls
  bucket : i.bucket + 1 < 2 ^ 64
  nmemb : i.a.nmemb = l.length
  fits : l.length < 2 ^ 64
  shows : (∃ r, i.a.Shows ((l ++ r).map some)) ∨ (l ≠ [] ∧ Unwritten i.a)

theorem Handing.partial_handOut {x : Stored δ} (hi : Handing bs i (l ++ [x]) ls) :
    Partial i.handOut w fun r w' => r.1 = x.item ∧ Handing bs r.2 l ls ∧ w' = w := by
  have hfits := hi.fits
  rw [List.length_append, List.length_singleton] at hfits
  rcases hi.shows with ⟨r, ha⟩ | ⟨-, ha⟩
  · refine runs_handOut (l := l) (r := r) (x := x) (m := l.length) (by simpa using ha)
      (by simpa using hi.nmemb) rfl hfits ?_
    refine ⟨rfl, ⟨hi.next, hi.bucket, rfl, Nat.lt_of_succ_lt hfits, .inl ⟨x :: r, ?_⟩⟩, rfl⟩
    exact BucketArray.Shows.with_nmemb (by simpa using ha) _
  · exact ha.runs_handOut trivial

/-- A snapshot finds nothing, finds no memory, or succeeds. -/
theorem partial_arraySnapshot {b : Nat} {a : BucketArray δ} :
    Partial (lhiArrayBucketToArray h b a) w fun r w' =>
      (r.1 = hiErrNodata ∧ h.bucketArraySlotSize.cells[b]? = some 0 ∧ w'.requests = w.requests) ∨
      (r.1 = hiErrSystem ∧ h.bucketArraySlotSize.cells[b]? ≠ some 0 ∧ ∃ m < 3, w.Refused m w') ∨
      (r.1 = 0 ∧ h.bucketArraySlotSize.cells[b]? ≠ some 0 ∧ w.Served 3 w') := by
  refine runs_bind.mpr (runs_mutexLock.mpr (silent_load.partial_bind fun len hlen => ?_))
  refine runs_ite.mpr ⟨fun h₀ => ?_, fun h₀ => ?_⟩
  · exact .inl ⟨rfl, h₀ ▸ hlen, rfl⟩
  have hne : h.bucketArraySlotSize.cells[b]? ≠ some 0 := fun hz =>
    h₀ (Option.some.inj (hlen.symm.trans hz))
  refine runs_bind.mpr (runs_lhiBucketArrayAlloc (toNat_ne_zero h₀) len.toNat_lt ?_ ?_)
  · intro m w₁ _ hm hr
    refine runs_ite.mpr ⟨fun _ => ?_, fun hz => absurd (show hiErrSystem ≠ 0 by decide) hz⟩
    exact .inr (.inl ⟨rfl, hne, m, hm, hr.of_log.after rfl⟩)
  · intro a' w₁ _ hs _ _
    refine runs_ite.mpr ⟨fun hz => absurd rfl hz, fun _ => ?_⟩
    refine silent_copySlots.partial_bind fun _ _ => runs_bind.mpr (runs_mutexUnlock.mpr ?_)
    exact .inr (.inr ⟨rfl, hne, hs.of_log.after rfl⟩)

namespace ArrayRep

/-- The snapshot of a bucket, or of what follows a slot that is free. -/
theorem partial_snapshot {m : List (Option (Stored δ))} {a : BucketArray δ} {b : Nat}
    (hr : ArrayRep h bs) (hb : bs[b]? = some m) :
    Partial (lhiArrayBucketToArray h b a) w fun r w' =>
      (r.1 = hiErrNodata ∧ m.reduceOption = [] ∧ w'.requests = w.requests) ∨
      (r.1 = hiErrSystem ∧ m.reduceOption ≠ [] ∧ ∃ m < 3, w.Refused m w') ∨
      (r.1 = 0 ∧ m.reduceOption ≠ [] ∧ w.Served 3 w' ∧ r.2.nmemb = m.reduceOption.length ∧
        (r.2.Shows (m.reduceOption.map some) ∨ Unwritten r.2)) := by
  have hzero : h.bucketArraySlotSize.cells[b]? = some 0 ↔ m.reduceOption = [] := by
    rw [hr.size_of_bucket hb, Option.some.injEq, ← UInt32.toNat_inj, hr.toNat_size hb]
    exact List.length_eq_zero_iff
  have hcontent : Partial (lhiArrayBucketToArray h b a) w fun r _ => r.1 = 0 →
      r.2.nmemb = m.reduceOption.length ∧
        (r.2.Shows (m.reduceOption.map some) ∨ Unwritten r.2) := by
    refine hr.runs_lhiArrayBucketToArray hb (fun _ _ _ h₀ => ?_) (fun _ _ _ h₀ => ?_)
      (fun _ _ a' _ _ hn ha _ => ⟨hn, .inl ha⟩) fun _ _ a' _ _ hn ha _ => ⟨hn, .inr ha⟩
    · exact absurd (show hiErrNodata = 0 from h₀) (by decide)
    · exact absurd (show hiErrSystem = 0 from h₀) (by decide)
  refine (partial_arraySnapshot.and_returned hcontent).imp fun r w' h' => ?_
  simp only [ne_eq, hzero] at h'
  obtain ⟨h₁ | h₁ | ⟨h₀, hne, hs⟩, h₂⟩ := h'
  · exact .inl h₁
  · exact .inr (.inl h₁)
  · exact .inr (.inr ⟨h₀, hne, hs, h₂ h₀⟩)

/-- The next bucket that is not empty, or the first snapshot that gets no memory. -/
theorem partial_getNextLoop (hr : ArrayRep h bs) (hlc : lc ≠ [])
    (hls : (arrayContents bs).drop i.bucket = pre ++ lc :: post)
    (hs : w.Serves (u.bucketsRequests done pre)) (href : ¬ w.Serves (u.bucketsRequests done pre + 3)) :
    Partial (getNextLoop lhiArrayBucketToArray h (pre ++ lc :: post).length i) w fun r w' =>
      (r.1 = 0 ∧ ∃ l pre', l ≠ [] ∧ Handing bs r.2 l (pre' ++ lc :: post) ∧ w.Served 3 w' ∧
        u.bucketsRequests done pre = 3 + u.requestsLeft done l pre' ∧
        (pre.map keysOut).flatten = keysLeft l pre') ∨
      (r.1 = hiErrSystem ∧ ∃ m < 3, w.Refused (u.bucketsRequests done pre + m) w') := by
  have hbucket : ∀ {j : Nat} {e : List (Stored δ)} {es : List (List (Stored δ))},
      (arrayContents bs).drop j = e :: es → (∃ m, bs[j]? = some m ∧ m.reduceOption = e) ∧
        (arrayContents bs).drop (j + 1) = es ∧ j + 1 < 2 ^ 64 := by
    intro j e es hdrop
    have hj : (arrayContents bs)[j]? = some e := by
      rw [← Nat.add_zero j, ← List.getElem?_drop, hdrop, List.getElem?_cons_zero]
    refine ⟨?_, ?_, ?_⟩
    · rwa [arrayContents, List.getElem?_map, Option.map_eq_some_iff] at hj
    · rw [← List.drop_drop, hdrop, List.drop_one, List.tail_cons]
    · have hlt := (List.getElem?_eq_some_iff.mp hj).1
      have htable := h.tableSize.toNat_lt
      rw [hr.table.length] at hlt
      omega
  induction pre generalizing i w with
  | nil =>
    obtain ⟨⟨m, hm, rfl⟩, -, -⟩ := hbucket hls
    refine Runs.bind (hr.partial_snapshot hm) fun r w₁ _ h₁ => ?_
    obtain ⟨res, a⟩ := r
    rcases h₁ with ⟨-, hz, -⟩ | ⟨rfl, -, m, hm, hr⟩ | ⟨-, -, hserved, -⟩
    · exact (hlc hz).elim
    · refine .inr ⟨rfl, m, hm, ?_⟩
      rwa [UserSettings.bucketsRequests, Nat.zero_add]
    · rw [UserSettings.bucketsRequests, Nat.zero_add] at href
      exact (href hserved.serves).elim
  | cons e pre ih =>
    obtain ⟨⟨m, hm, rfl⟩, hnext, hlt⟩ := hbucket hls
    refine Runs.bind (hr.partial_snapshot hm) fun r w₁ hw₁ h₁ => ?_
    obtain ⟨res, a⟩ := r
    rcases h₁ with ⟨rfl, hz, hreq⟩ | ⟨rfl, hne, n, hn, hr⟩ | ⟨rfl, hne, hserved, hnmemb, ha⟩
    · have hsame : u.bucketsRequests done (m.reduceOption :: pre) = u.bucketsRequests done pre := by
        simp [UserSettings.bucketsRequests, hz, UserSettings.keysRequests]
      rw [hsame] at hs href ⊢
      have hs₁ := fun n => World.Serves.of_requests (n := n) hw₁ hreq
      refine (ih (i := { i with bucket := i.bucket + 1, a := a }) hnext ((hs₁ _).mpr hs)
        (mt (hs₁ _).mp href)).imp fun r w₂ h₂ => ?_
      rcases h₂ with ⟨h₀, l, pre', hl, hi, hserved, hcount, hkeys⟩ | ⟨h₀, n, hn, hr⟩
      · refine .inl ⟨h₀, l, pre', hl, hi, ?_, hcount, by simpa [hz] using hkeys⟩
        simpa using (World.Served.zero hreq).trans hw₁ hserved
      · exact .inr ⟨h₀, n, hn, by simpa using (World.Served.zero hreq).refused hw₁ hr⟩
    · rw [UserSettings.bucketsRequests, if_neg hne] at hs
      exact (hr.not_serves (Nat.lt_add_right _ hn) hs).elim
    · refine .inl ⟨rfl, m.reduceOption, pre, hne, ⟨hnext, hlt, hnmemb, ?_, ?_⟩, hserved, ?_, rfl⟩
      · have hfits := hr.fits m (List.mem_of_getElem? hm)
        have hle := m.reduceOption_length_le
        omega
      · exact ha.imp (fun ha => ⟨[], by rwa [List.append_nil]⟩) fun ha => ⟨hne, ha⟩
      · rw [UserSettings.bucketsRequests, if_neg hne]
        rfl

theorem partial_getNextBucket (hr : ArrayRep h bs) (ha : arrayEngine h.collEng) (hlc : lc ≠ [])
    (hls : (arrayContents bs).drop i.bucket = pre ++ lc :: post) {err : Int}
    (hs : w.Serves (u.bucketsRequests done pre)) (href : ¬ w.Serves (u.bucketsRequests done pre + 3)) :
    Partial (getNextBucket err h i) w fun r w' =>
      (r.1 = 0 ∧ ∃ l pre', l ≠ [] ∧ Handing bs r.2 l (pre' ++ lc :: post) ∧ w.Served 3 w' ∧
        u.bucketsRequests done pre = 3 + u.requestsLeft done l pre' ∧
        (pre.map keysOut).flatten = keysLeft l pre') ∨
      (r.1 = hiErrSystem ∧ ∃ m < 3, w.Refused (u.bucketsRequests done pre + m) w') := by
  have hlen := congrArg List.length hls
  rw [List.length_drop, hr.table.length] at hlen
  rw [getNextBucket_array ha, hlen]
  exact hr.partial_getNextLoop hlc hls hs href

/-- The first snapshot of an iterator. -/
theorem partial_hiIteratorCreate (hr : ArrayRep h bs) (ha : arrayEngine h.collEng) (hlc : lc ≠ [])
    (hls : arrayContents bs = pre ++ lc :: post) (hs : w.Serves (1 + u.bucketsRequests done pre))
    (href : ¬ w.Serves (1 + (u.bucketsRequests done pre + 3))) :
    Partial (hiIteratorCreate h) w fun r w' =>
      (∃ i l pre', r = .ok i ∧ Handing bs i l (pre' ++ lc :: post) ∧ w.Served 4 w' ∧
        u.bucketsRequests done pre = 3 + u.requestsLeft done l pre' ∧
        (pre.map keysOut).flatten = keysLeft l pre') ∨
      (r = .error hiErrSystem ∧ ∃ m < 3, w.Refused (1 + (u.bucketsRequests done pre + m)) w') := by
  refine runs_bind.mpr (runs_malloc_refused (fun w₁ _ hr => ?_) fun junk w₁ hw₁ hreq hblock _ => ?_)
  · exact (hr.not_serves (by omega) hs).elim
  have hs₁ : w.Served 1 w₁ := .one hreq hblock
  refine Runs.bind (hr.partial_getNextBucket (i := ⟨_, 0, _⟩) ha hlc hls ((hs₁.serves_add hw₁).mp hs)
    (mt (hs₁.serves_add hw₁).mpr href)) fun r w₂ _ h₂ => ?_
  obtain ⟨ret, i⟩ := r
  rcases h₂ with ⟨rfl, l, pre', -, hi, hserved, hcount, hkeys⟩ | ⟨rfl, m, hm, hr⟩
  · exact .inl ⟨i, l, pre', rfl, hi, hs₁.trans hw₁ hserved, hcount, hkeys⟩
  · refine runs_ite.mpr ⟨fun hz => absurd hz (by decide), fun _ => ?_⟩
    refine runs_bind.mpr (runs_free fun w₃ _ hreq₃ => .inr ⟨rfl, m, hm, ?_⟩)
    exact (hs₁.refused hw₁ hr).after hreq₃

/-- The next entry, or a snapshot that gets no memory. -/
theorem partial_hiIteratorGetnext (hr : ArrayRep h bs) (ha : arrayEngine h.collEng) (hlc : lc ≠ [])
    (hi : Handing bs i l (pre ++ lc :: post)) (hs : w.Serves (u.requestsLeft done l pre))
    (href : ¬ w.Serves (u.requestsLeft done l pre + 3)) :
    Partial (hiIteratorGetnext h i) w fun r w' =>
      (∃ (x : Stored δ) (l' : List (Stored δ)) (pre' : List (List (Stored δ))) (c : Nat),
        r.2.1 = some x.item ∧ Handing bs r.2.2 l' (pre' ++ lc :: post) ∧
        keysLeft l pre = x.key :: keysLeft l' pre' ∧ w.Served c w' ∧
        u.requestsLeft done l pre =
          c + (u.moveRequests done x.key + u.requestsLeft (done ++ [x.key]) l' pre')) ∨
      (r.1 = hiErrSystem ∧ r.2.1 = none ∧ ∃ m < 3, w.Refused (u.requestsLeft done l pre + m) w') := by
  have hleft : ∀ (l : List (Stored δ)) (x : Stored δ) (ls : List (List (Stored δ))),
      keysLeft (l ++ [x]) ls = x.key :: keysLeft l ls := fun l x ls => by simp [keysLeft]
  unfold hiIteratorGetnext
  rcases List.eq_nil_or_concat l with rfl | ⟨l, x, rfl⟩
  · rw [if_neg (by simpa using hi.nmemb)]
    refine runs_bind.mpr (runs_lhiBucketArrayFree fun w₁ hw₁ hreq => ?_)
    rw [UserSettings.requestsLeft_nil] at hs href ⊢
    have hs₁ := fun n => World.Serves.of_requests (n := n) hw₁ hreq
    have hbucket : sizeT (i.bucket + 1) = i.bucket + 1 := Nat.mod_eq_of_lt hi.bucket
    rw [hbucket]
    refine Runs.bind (hr.partial_getNextBucket (i := { i with bucket := i.bucket + 1, a := _ }) ha hlc
      hi.next ((hs₁ _).mpr hs) (mt (hs₁ _).mp href)) fun r w₂ hw₂ h₂ => ?_
    obtain ⟨ret, j⟩ := r
    rcases h₂ with ⟨rfl, l, pre', hl, hj, hserved, hcount, hkeys⟩ | ⟨rfl, m, hm, hr⟩
    · obtain ⟨l, x, rfl⟩ := (List.eq_nil_or_concat l).resolve_left hl
      rw [List.concat_eq_append] at hj hcount hkeys
      refine runs_ite.mpr ⟨fun _ => ?_, fun hz => absurd rfl hz⟩
      refine Runs.bind hj.partial_handOut fun q w₃ _ h₃ => ?_
      obtain ⟨hx, hj', rfl⟩ := h₃
      refine .inl ⟨x, l, pre', 3, congrArg some hx, hj', ?_, ?_, ?_⟩
      · rw [← hleft, ← hkeys]
        simp [keysLeft]
      · simpa using (World.Served.zero hreq).trans hw₁ hserved
      · rw [hcount, UserSettings.requestsLeft_concat]
    · refine runs_ite.mpr ⟨fun hz => absurd hz (by decide), fun _ => ?_⟩
      exact .inr ⟨rfl, rfl, m, hm, by simpa using (World.Served.zero hreq).refused hw₁ hr⟩
  · rw [List.concat_eq_append] at hi hs href ⊢
    have hnmemb := hi.nmemb
    rw [if_pos (by rw [hnmemb]; simp)]
    refine Runs.bind hi.partial_handOut fun q w₁ _ h₁ => ?_
    obtain ⟨hx, hi', rfl⟩ := h₁
    refine .inl ⟨x, l, pre, 0, congrArg some hx, hi', hleft l x pre, .zero rfl, ?_⟩
    rw [Nat.zero_add, UserSettings.requestsLeft_concat]

end ArrayRep

end OldTable

end Hashish
