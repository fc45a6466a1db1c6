import Hashish.KeyOrder
import Hashish.ListMap
import Hashish.Sessions

/-!
# The list engines with a second hash

`COLL_ENG_LIST_HASH` and `COLL_ENG_LIST_MTF_HASH` look at a second hash value before they compare
keys. `lhi_insert_list` never stores it: an object keeps the word that was in its fresh block. A walk
that asks for equal values passes an object with another word by, as long as the table lives.
`lhi_get_list` asks for different values when the engine is `COLL_ENG_LIST_MTF_HASH`, and finds only
such objects.

* `hash_lists_run`: what every call answers, in terms of a map and of the pairs that are lost to it.
  The words in the fresh blocks decide which pairs are lost.
* `hash_list_is_map_iff`: when `COLL_ENG_LIST_HASH` answers as a map.
* `mtf_hash_list_forgets`: `COLL_ENG_LIST_MTF_HASH` never does.
-/

namespace Hashish

open Hashish.Lib

variable {δ : Type}

/-! ## The abstract table -/

/-- The pair that `hi_get` finds among the lost ones, the latest first. -/
def lostGet (cmp : KeyCmp) (lost : List (Key × δ)) (k : Key) : Option (Key × δ) :=
  lost.find? fun p => decide (cmp.same k p.1)

variable {cmp : KeyCmp}

/-- A call on a map and on the pairs that are lost to it. `kept` tells whether an insertion meets the
right word in its fresh block; when it does not, the pair is lost, and the call succeeds. -/
def hashedStep (e : CollEng) (s : KeyMap cmp δ × List (Key × δ)) (call : MapOp δ × Bool) :
    Result δ × (KeyMap cmp δ × List (Key × δ)) :=
  match call with
  | (.insert k d, kept) =>
    if h : s.1.Absent k then
      (⟨success, none⟩, if kept then (s.1.insertNew k d h, s.2) else (s.1, (k, d) :: s.2))
    else (⟨hiErrDupkey, none⟩, s)
  | (.get k, _) =>
    -- `lhi_get_list` asks for different second hashes under `COLL_ENG_LIST_MTF_HASH`.
    (answerOf (if e = .listMtfHash then (lostGet cmp s.2 k).map Prod.snd else s.1.get k), s)
  | (.remove k, _) => (answerOf (s.1.get k), (s.1.erase k, s.2))

/-- The word that the `n`-th block has at `key_hash`, if it is the block of an object. -/
def World.keyHashWord (w : World) (n : Nat) : UInt32 :=
  match w.replies n with
  | .block junk => junk 0
  | .fail _ => 0

/-- Whether an insertion finds the second hash of its key in the word of its fresh block. -/
def MapOp.meets (f : HashFunc) (word : UInt32) : MapOp δ → Bool
  | .insert k _ => f.hash k = word
  | .get _ | .remove _ => true

/-- The requests of a call: a new pair takes a block for its object and one for its key. -/
def MapOp.requests (m : KeyMap cmp δ) : MapOp δ → Nat
  | .insert k _ => if m.Absent k then 2 else 0
  | .get _ | .remove _ => 0

/-- The calls of a run that makes its first request as the `n`-th one, each with whether it meets the
right word. The block of an object is the first of the two that its insertion takes. -/
def markedCalls (e : CollEng) (f : HashFunc) (word : Nat → UInt32) :
    KeyMap cmp δ × List (Key × δ) → Nat → List (MapOp δ) → List (MapOp δ × Bool)
  | _, _, [] => []
  | s, n, op :: ops =>
    (op, op.meets f (word n)) :: markedCalls e f word (hashedStep e s (op, op.meets f (word n))).2
      (n + op.requests s.1) ops

/-- The requests of `hi_create`: the handle, the counters of the buckets, the block of the mutex and
its initialisation, the table. -/
def createRequests : Nat := 5

/-- The calls of a run on a new table, each with whether it meets the right word. -/
def hashedCalls (e : CollEng) (cmp : KeyCmp) (f : HashFunc) (w : World) (ops : List (MapOp δ)) :
    List (MapOp δ × Bool) :=
  markedCalls e f w.keyHashWord ((.empty, []) : KeyMap cmp δ × List (Key × δ))
    (w.requests + createRequests) ops

/-- The calls of a run on a new table. -/
def hashedRun (e : CollEng) (cmp : KeyCmp) (calls : List (MapOp δ × Bool)) :
    List (Result δ) × (KeyMap cmp δ × List (Key × δ)) :=
  Machine.runStep (hashedStep e) (.empty, []) calls

theorem World.keyHashWord_eq {w : World} {n : Nat} {junk : Nat → UInt32}
    (h : w.replies n = .block junk) : w.keyHashWord n = junk 0 := by
  rw [keyHashWord, h]

theorem World.keyHashWord_mono {w w' : World} (hw : w ≤ w') : w'.keyHashWord = w.keyHashWord := by
  funext n
  rw [keyHashWord, keyHashWord, Extends.replies hw]

theorem markedCalls_fst {e : CollEng} {f : HashFunc} {word : Nat → UInt32}
    {s : KeyMap cmp δ × List (Key × δ)} {n : Nat} {ops : List (MapOp δ)} :
    (markedCalls e f word s n ops).map Prod.fst = ops := by
  induction ops generalizing s n with
  | nil => rfl
  | cons op ops ih => rw [markedCalls, List.map_cons, ih]

theorem hashedCalls_fst (e : CollEng) (cmp : KeyCmp) (f : HashFunc) (w : World)
    (ops : List (MapOp δ)) : (hashedCalls e cmp f w ops).map Prod.fst = ops :=
  markedCalls_fst

/-! ## Marked objects -/

/-- The word in `key_hash` is the second hash of the key. -/
def Obj.marked (f : HashFunc) (x : Obj δ) : Bool := f.hash x.key = x.keyHash

def Obj.unmarked (f : HashFunc) (x : Obj δ) : Bool := f.hash x.key ≠ x.keyHash

/-- The pairs of the objects that have a property, bucket by bucket. -/
def shown (p : Obj δ → Bool) (os : List (List (Obj δ))) : List (List (Stored δ)) :=
  os.map fun l => (l.filter p).map Obj.toStored

/-- The test of a walk for the key `k` that only looks at the objects with a property. -/
def markTest (cmp : KeyCmp) (p : Obj δ → Bool) (k : Key) (x : Obj δ) : Bool := p x && keyTest cmp k x

section Shown

variable {p : Obj δ → Bool} {os : List (List (Obj δ))} {l l₁ l₂ : List (Obj δ)} {k : Key}
  {u : UserSettings} {b : Nat} {x : Obj δ}

theorem find_shown_none (hl : ∀ x ∈ l, markTest cmp p k x = false) :
    cmp.find ((l.filter p).map Obj.toStored) k = none := by
  refine find_of_test_none fun x hx => ?_
  obtain ⟨hx, hp⟩ := List.mem_filter.mp hx
  simpa [markTest, hp] using hl x hx

theorem find_shown (hl : ∀ y ∈ l₁, markTest cmp p k y = false) (hx : markTest cmp p k x = true) :
    cmp.find (((l₁ ++ x :: l₂).filter p).map Obj.toStored) k = some x.toStored := by
  obtain ⟨hp, hkey⟩ := Bool.and_eq_true_iff.mp hx
  rw [List.filter_append, List.filter_cons_of_pos hp]
  refine find_of_test (fun y hy => ?_) hkey
  obtain ⟨hy, hp⟩ := List.mem_filter.mp hy
  simpa [markTest, hp] using hl y hy

theorem shown_set : shown p (os.set b l) = (shown p os).set b ((l.filter p).map Obj.toStored) := by
  rw [shown, shown, List.map_set]

theorem shown_getElem (hb : os[b]? = some l) :
    (shown p os)[b]? = some ((l.filter p).map Obj.toStored) := by
  simp [shown, hb]

theorem Table.shown (ht : Table u (contents os)) : Table u (shown p os) where
  length := by simpa [Hashish.shown, contents] using ht.length
  placed b l hl x hx := by
    rw [Hashish.shown, List.getElem?_map, Option.map_eq_some_iff] at hl
    obtain ⟨l, hb, rfl⟩ := hl
    obtain ⟨y, hy, rfl⟩ := List.mem_map.mp hx
    exact ht.placed b _ (contents_getElem hb) _ (List.mem_map_of_mem (List.mem_of_mem_filter hy))

/-- A key is looked up in its bucket. -/
theorem find_shown_flatten (ht : Table u (contents os))
    (hok : u.hashFunc.Respects u.keyCmp fun _ => True) (hb : os[u.bucket k]? = some l) :
    u.keyCmp.find (shown p os).flatten k = u.keyCmp.find ((l.filter p).map Obj.toStored) k :=
  ht.shown.find_flatten (fun _ _ _ _ => hok _ _ trivial trivial) (shown_getElem hb)

/-- A key is looked up as before when its bucket was replaced by one in which it is. -/
theorem find_shown_set (ht : Table u (contents os)) (ht' : Table u (contents (os.set b l₂)))
    (hu : u.tableSize ≠ 0) (hok : u.hashFunc.Respects u.keyCmp fun _ => True) (hb : os[b]? = some l₁)
    (hfind : u.keyCmp.find ((l₂.filter p).map Obj.toStored) k =
      u.keyCmp.find ((l₁.filter p).map Obj.toStored) k) :
    u.keyCmp.find (shown p (os.set b l₂)).flatten k = u.keyCmp.find (shown p os).flatten k := by
  have hlt : u.bucket k < os.length := by
    have hlen : (contents os).length = u.tableSize.toNat := ht.length
    rw [contents, List.length_map] at hlen
    rw [hlen]
    exact u.bucket_lt hu k
  have hk : os[u.bucket k]? = some os[u.bucket k] := List.getElem?_eq_getElem hlt
  rw [find_shown_flatten ht hok hk]
  by_cases hbk : b = u.bucket k
  · subst hbk
    rw [find_shown_flatten ht' hok (List.getElem?_set_self hlt), hfind,
      Option.some_inj.mp (hk.symm.trans hb)]
  · rw [find_shown_flatten ht' hok (by rw [List.getElem?_set_ne hbk, hk])]

/-- Moving an object to the front of its bucket changes what is found first only for keys that come
before it. -/
theorem find_moved (heq : Equivalence cmp.same) (hl : ∀ y ∈ l₁, markTest cmp p k y = false)
    (hx : markTest cmp p k x = true) {q : Key} :
    cmp.find (((x :: (l₁ ++ l₂)).filter p).map Obj.toStored) q =
      cmp.find (((l₁ ++ x :: l₂).filter p).map Obj.toStored) q := by
  obtain ⟨hp, hkey⟩ := Bool.and_eq_true_iff.mp hx
  have hkx : cmp.same k x.key := by simpa [keyTest] using hkey
  rw [List.filter_cons_of_pos hp, List.filter_append, List.filter_append, List.filter_cons_of_pos hp,
    List.map_cons, List.map_append, List.map_append, List.map_cons, KeyCmp.find_cons,
    KeyCmp.find_append, KeyCmp.find_append, KeyCmp.find_cons]
  by_cases hq : cmp.same q x.key
  -- An object before `x` with the same key would have ended the walk.
  · have hnone : cmp.find ((l₁.filter p).map Obj.toStored) q = none := by
      refine find_shown_none fun y hy => ?_
      by_contra hy'
      obtain ⟨hpy, hqy⟩ := Bool.and_eq_true_iff.mp (eq_true_of_ne_false hy')
      have hky : cmp.same k y.key :=
        heq.trans hkx (heq.trans (heq.symm hq) (by simpa [keyTest] using hqy))
      have hfalse := hl y hy
      rw [markTest, hpy, keyTest, decide_eq_true hky] at hfalse
      cases hfalse
    rw [if_pos hq, hnone, if_pos hq, Option.none_or]
  · rw [if_neg hq, if_neg hq]

end Shown

/-! ## Calls -/

/-- The settings of a list engine with a second hash. -/
structure HashedList (u : UserSettings) (f : HashFunc) : Prop where
  engine : u.collEng = .listHash ∨ u.collEng = .listMtfHash
  hash2Func : u.hash2Func = some f
  tableSize : u.tableSize ≠ 0
  equivalence : Equivalence u.keyCmp.same
  respects : u.hashFunc.Respects u.keyCmp fun _ => True
  respects2 : f.Respects u.keyCmp fun _ => True

/-- The marked objects are those of a map, the others are the pairs that are lost. -/
structure Split (f : HashFunc) (s : KeyMap cmp δ × List (Key × δ)) (os : List (List (Obj δ))) :
    Prop where
  marked : Holds s.1 (shown (Obj.marked f) os).flatten
  lost : s.2.Perm ((shown (Obj.unmarked f) os).flatten.map Stored.pair)
  find : ∀ q, (cmp.find (shown (Obj.unmarked f) os).flatten q).map Stored.pair = lostGet cmp s.2 q

theorem Obj.unmarked_eq (f : HashFunc) (x : Obj δ) : x.unmarked f = !x.marked f := by
  simp [unmarked, marked]

/-- The buckets show the same when a bucket is replaced by one that shows the same. -/
theorem shown_set_self {p : Obj δ → Bool} {os : List (List (Obj δ))} {b : Nat} {l l' : List (Obj δ)}
    (hb : os[b]? = some l) (hl : l'.filter p = l.filter p) : shown p (os.set b l') = shown p os := by
  rw [shown_set, hl]
  exact set_self (shown_getElem hb)

section Split

variable {u : UserSettings} {f : HashFunc} {s : KeyMap u.keyCmp δ × List (Key × δ)}
  {os : List (List (Obj δ))} {b : Nat} {l l₁ l₂ : List (Obj δ)} {x : Obj δ} {k : Key}

/-- What an object in the middle of a bucket adds to what the bucket shows. -/
theorem filter_middle {p : Obj δ → Bool} (hx : p x = false) :
    (l₁ ++ x :: l₂).filter p = (l₁ ++ l₂).filter p := by
  rw [List.filter_append, List.filter_cons_of_neg (by simp [hx]), List.filter_append]

/-- `COLL_ENG_LIST_MTF_HASH` puts an object without a mark at the front. -/
theorem Split.move (hs : Split f s os) (hu : HashedList u f) (hb : os[b]? = some (l₁ ++ x :: l₂))
    (hl : ∀ y ∈ l₁, markTest u.keyCmp (Obj.unmarked f) k y = false)
    (hx : markTest u.keyCmp (Obj.unmarked f) k x = true) (ht : Table u (contents os))
    (ht' : Table u (contents (os.set b (x :: (l₁ ++ l₂))))) :
    Split f s (os.set b (x :: (l₁ ++ l₂))) where
  marked := by
    have hmark : x.marked f = false := by
      have := (Bool.and_eq_true_iff.mp hx).1
      rwa [Obj.unmarked_eq, Bool.not_eq_true'] at this
    rw [shown_set_self hb (by
      rw [filter_middle hmark, List.filter_cons_of_neg (by simp [hmark])])]
    exact hs.marked
  lost := by
    refine hs.lost.trans (List.Perm.map _ ?_)
    have hperm : (x :: (l₁ ++ l₂)).Perm (l₁ ++ x :: l₂) := List.perm_middle.symm
    rw [shown_set]
    exact (flatten_perm (shown_getElem hb)).trans (((hperm.filter _).map _).symm.append_right _
      |>.trans (flatten_set_perm (shown_getElem hb) _).symm)
  find q := by
    rw [find_shown_set ht ht' hu.tableSize hu.respects hb (find_moved hu.equivalence hl hx)]
    exact hs.find q

/-- A removal takes a marked object out. -/
theorem Split.remove (hs : Split f s os) (hu : HashedList u f) (hb : os[b]? = some (l₁ ++ x :: l₂))
    (hx : markTest u.keyCmp (Obj.marked f) k x = true) :
    Split f (s.1.erase k, s.2) (os.set b (l₁ ++ l₂)) := by
  obtain ⟨hmark, hkey⟩ := Bool.and_eq_true_iff.mp hx
  have hkx : u.keyCmp.same k x.key := by simpa [keyTest] using hkey
  have hlost : shown (Obj.unmarked f) (os.set b (l₁ ++ l₂)) = shown (Obj.unmarked f) os :=
    shown_set_self hb (filter_middle (by rw [Obj.unmarked_eq, hmark]; rfl)).symm
  refine ⟨?_, hlost ▸ hs.lost, fun q => hlost ▸ hs.find q⟩
  -- The marked objects before the removal are `x` and those after it.
  have hold : (shown (Obj.marked f) os).flatten.Perm
      (x.toStored :: (shown (Obj.marked f) (os.set b (l₁ ++ l₂))).flatten) := by
    have hnew := flatten_set_perm (shown_getElem (p := Obj.marked f) hb)
      (((l₁ ++ l₂).filter (Obj.marked f)).map Obj.toStored)
    rw [← shown_set] at hnew
    refine (flatten_perm (shown_getElem hb)).trans (.trans ?_ (hnew.symm.cons _))
    rw [List.filter_append, List.filter_cons_of_pos hmark, List.filter_append, List.map_append,
      List.map_append, List.map_cons, ← List.cons_append]
    exact List.perm_middle.append_right _
  have hpair : x.pair ∈ s.1.pairs :=
    hs.marked.mem_iff.mpr ⟨x.toStored, hold.mem_iff.mpr List.mem_cons_self, rfl⟩
  have herase := FMap.perm_erase hu.equivalence hpair hkx
  exact (herase.symm.trans (List.Perm.trans hs.marked (hold.map Stored.pair))).cons_inv

/-- An insertion puts an object at the front, with a mark or without. -/
theorem Split.insert (hs : Split f s os) (hu : HashedList u f) (ht : Table u (contents os))
    (hb : os[u.bucket x.key]? = some l) (ha : s.1.Absent x.key) :
    Split f (if x.marked f then (s.1.insertNew x.key x.data ha, s.2)
      else (s.1, (x.key, x.data) :: s.2)) (os.set (u.bucket x.key) (x :: l)) := by
  -- The new object shows on one side, and the other side shows what it did.
  have hcons : ∀ p : Obj δ → Bool, p x = true →
      (shown p (os.set (u.bucket x.key) (x :: l))).flatten.Perm
        (x.toStored :: (shown p os).flatten) := by
    intro p hp
    rw [shown_set, List.filter_cons_of_pos hp]
    exact (flatten_set_perm (shown_getElem hb) _).trans ((flatten_perm (shown_getElem hb)).symm.cons _)
  have hsame : ∀ p : Obj δ → Bool, p x = false →
      shown p (os.set (u.bucket x.key) (x :: l)) = shown p os := fun p hp =>
    shown_set_self hb (List.filter_cons_of_neg (by simp [hp]))
  cases hmark : x.marked f with
  | true =>
    have hlost := hsame (Obj.unmarked f) (by rw [Obj.unmarked_eq, hmark]; rfl)
    rw [if_pos rfl]
    exact ⟨(List.Perm.cons _ hs.marked).trans ((hcons _ hmark).map Stored.pair).symm,
      hlost ▸ hs.lost, fun q => hlost ▸ hs.find q⟩
  | false =>
    have hun : x.unmarked f = true := by rw [Obj.unmarked_eq, hmark]; rfl
    rw [if_neg Bool.false_ne_true]
    refine ⟨hsame _ hmark ▸ hs.marked, (hs.lost.cons _).trans ((hcons _ hun).map Stored.pair).symm,
      fun q => ?_⟩
    rw [shown_set, List.filter_cons_of_pos hun, List.map_cons, ht.shown.find_set_cons hu.tableSize
      (shown_getElem hb) (fun _ _ _ _ => hu.respects _ _ trivial trivial), KeyCmp.find_cons, lostGet,
      List.find?_cons]
    by_cases hq : u.keyCmp.same q x.key
    · simp [hq, Stored.pair]
    · simpa [hq, lostGet] using hs.find q

end Split

section Calls

variable {h : HiHandle δ} {w : World} {os : List (List (Obj δ))} {f : HashFunc} {k : Key} {d : δ}
  {s : KeyMap h.keyCmp δ × List (Key × δ)} {E : Fault → Prop}

theorem runs_hash2 {Q : UInt32 → World → Prop} (hf : h.hash2Func = some f) :
    Runs E (h.hash2 k.bytes k.keylen) w Q ↔ Q (f.hash k) w := by
  rw [HiHandle.hash2, hf]
  exact runs_pure

theorem hashHit_eq (hf : f.Respects h.keyCmp fun _ => True) (o : HiBucketHlObj δ) (x : Obj δ)
    (hs : (objLinkage δ).shows o x) :
    h.hashHit k.bytes (f.hash k) o = markTest h.keyCmp (Obj.marked f) k x := by
  rw [HiHandle.hashHit, keyHit_eq o x hs, markTest, Obj.marked, hs.2]
  by_cases hk : h.keyCmp.same k x.key
  · rw [hf k x.key trivial trivial hk]
  · simp [keyTest, hk]

theorem hashMissHit_eq (hf : f.Respects h.keyCmp fun _ => True) (o : HiBucketHlObj δ) (x : Obj δ)
    (hs : (objLinkage δ).shows o x) :
    h.hashMissHit k.bytes (f.hash k) o = markTest h.keyCmp (Obj.unmarked f) k x := by
  rw [HiHandle.hashMissHit, keyHit_eq o x hs, markTest, Obj.unmarked, hs.2]
  by_cases hk : h.keyCmp.same k x.key
  · rw [hf k x.key trivial trivial hk]
  · simp [keyTest, hk]

section Engine

variable (hu : HashedList h.toUserSettings f) (hr : ListRep h w os) (hs : Split f s os)
include hu hr

theorem exists_hashed_bucket : ∃ l, os[h.toUserSettings.bucket k]? = some l ∧ ∀ p : Obj δ → Bool,
    h.keyCmp.find (shown p os).flatten k = h.keyCmp.find ((l.filter p).map Obj.toStored) k := by
  obtain ⟨l, hb⟩ := hr.exists_bucket hu.tableSize k
  exact ⟨l, hb, fun p => find_shown_flatten hr.table hu.respects hb⟩

include hs

theorem hashed_lookup : Total (hiLookup h k.bytes k.keylen) w fun ret w' =>
    w'.requests = w.requests ∧
      ((ret = success ∧ ¬ s.1.Absent k) ∨ (ret ≠ success ∧ s.1.Absent k)) := by
  obtain ⟨l, hb, hfind⟩ := exists_hashed_bucket hu hr (k := k)
  have hseek : Total (h.seekBucket (h.toUserSettings.bucket k) (h.hashHit k.bytes (f.hash k)))
      (w.log (.lock h.mutexLock)) fun r w' => w'.requests = w.requests ∧
        ((r ≠ none ∧ ¬ s.1.Absent k) ∨ (r = none ∧ s.1.Absent k)) := by
    refine (hr.mono (w.le_log _)).runs_seekBucket hb (hashHit_eq hu.respects2)
      (fun hn => ⟨rfl, .inr ⟨rfl, ?_⟩⟩) ?_
    · exact hs.marked.absent_iff.mpr ((hfind _).trans (find_shown_none hn))
    · rintro l₁ x l₂ rfl hn hx
      refine ⟨rfl, .inl ⟨nofun, fun ha => ?_⟩⟩
      have hnone := (hfind _).symm.trans (hs.marked.absent_iff.mp ha)
      rw [find_shown hn hx] at hnone
      cases hnone
  have hlook : Total (lhiLookupList h k.bytes k.keylen) (w.log (.lock h.mutexLock)) fun ret w' =>
      w'.requests = w.requests ∧
        ((ret = success ∧ ¬ s.1.Absent k) ∨ (ret ≠ success ∧ s.1.Absent k)) := by
    unfold lhiLookupList
    refine runs_bind.mpr ((runs_bucketOf hu.tableSize k).mpr ?_)
    rcases hu.engine with he | he <;>
    · simp only [he, runs_bind, runs_hash2 hu.hash2Func]
      refine hseek.imp fun r w' hr => ?_
      obtain ⟨hreq, ⟨hr, ha⟩ | ⟨rfl, ha⟩⟩ := hr
      · obtain ⟨p, rfl⟩ := Option.ne_none_iff_exists'.mp hr
        exact ⟨hreq, .inl ⟨rfl, ha⟩⟩
      · exact ⟨hreq, .inr ⟨by decide, ha⟩⟩
  unfold hiLookup
  rcases hu.engine with he | he <;>
  · simp only [he, runs_bind, runs_mutexLock]
    refine hlook.imp fun ret w' h' => ?_
    simp only [runs_mutexUnlock, runs_pure]
    exact h'

theorem hashed_get : Total (hiGet h k.bytes k.keylen) w fun r w' =>
    r.2.toUserSettings = h.toUserSettings ∧ w'.requests = w.requests ∧
      r.1 = (hashedStep h.collEng s (.get k, true)).1 ∧
      ∃ os', ListRep r.2 w' os' ∧ Split f s os' := by
  obtain ⟨l, hb, hfind⟩ := exists_hashed_bucket hu hr (k := k)
  have hlog := w.le_log (.lock h.mutexLock)
  unfold hiGet lhiGetList
  rcases hu.engine with he | he
  · have hanswer : (hashedStep h.collEng s (.get k, true)).1 =
        resultOf (h.keyCmp.find ((l.filter (Obj.marked f)).map Obj.toStored) k) := by
      rw [hashedStep, if_neg (by rw [he]; decide), hs.marked.answerOf_get hu.equivalence, hfind]
    simp only [he, runs_bind, runs_bucketOf hu.tableSize, runs_mutexLock, runs_hash2 hu.hash2Func]
      at hanswer ⊢
    refine (hr.mono hlog).runs_getHit hb (hashHit_eq hu.respects2) (fun hn w' hw hreq _ => ?_) ?_
    · refine ⟨rfl, hreq, ?_, os, hr.mono (hlog.trans hw), hs⟩
      rw [hanswer, find_shown_none hn]
      rfl
    · rintro l₁ x l₂ w' rfl hn hx hw hreq -
      refine ⟨rfl, hreq, ?_, os, hr.mono (hlog.trans hw), hs⟩
      rw [hanswer, find_shown hn hx]
      rfl
  -- The walk of `COLL_ENG_LIST_MTF_HASH` finds an object without a mark and moves it.
  · have hanswer : (hashedStep h.collEng s (.get k, true)).1 =
        resultOf (h.keyCmp.find ((l.filter (Obj.unmarked f)).map Obj.toStored) k) := by
      rw [hashedStep, if_pos he, ← hs.find k, ← hfind]
      cases h.keyCmp.find (shown (Obj.unmarked f) os).flatten k <;> rfl
    simp only [he, runs_bind, runs_bucketOf hu.tableSize, runs_mutexLock, runs_hash2 hu.hash2Func]
      at hanswer ⊢
    refine (hr.mono hlog).runs_getHitMtf hb (hashMissHit_eq hu.respects2)
      (fun hn w' hw hreq _ => ?_) ?_
    · refine ⟨rfl, hreq, ?_, os, hr.mono (hlog.trans hw), hs⟩
      rw [hanswer, find_shown_none hn]
      rfl
    · rintro l₁ x l₂ h' w' rfl hn hx hr' hu' hw hreq -
      refine ⟨hu', hreq, ?_, _, hr', hs.move hu hb hn hx hr.table (hu' ▸ hr'.table)⟩
      rw [hanswer, find_shown hn hx]
      rfl

theorem hashed_remove : Total (hiRemove h k.bytes k.keylen) w fun r w' =>
    r.2.toUserSettings = h.toUserSettings ∧ w'.requests = w.requests ∧
      r.1 = (hashedStep h.collEng s (.remove k, true)).1 ∧
      ∃ os', ListRep r.2 w' os' ∧ Split f (s.1.erase k, s.2) os' := by
  obtain ⟨l, hb, hfind⟩ := exists_hashed_bucket hu hr (k := k)
  have hlog := w.le_log (.lock h.mutexLock)
  have hanswer : (hashedStep h.collEng s (.remove k, true)).1 =
      resultOf (h.keyCmp.find ((l.filter (Obj.marked f)).map Obj.toStored) k) := by
    rw [hashedStep, hs.marked.answerOf_get hu.equivalence, hfind]
  have hremove : Total (h.removeHit (h.toUserSettings.bucket k) (h.hashHit k.bytes (f.hash k)))
      (w.log (.lock h.mutexLock)) fun r w' => r.2.toUserSettings = h.toUserSettings ∧
        w'.requests = w.requests ∧ r.1 = (hashedStep h.collEng s (.remove k, true)).1 ∧
        ∃ os', ListRep r.2 w' os' ∧ Split f (s.1.erase k, s.2) os' := by
    rw [hanswer]
    refine (hr.mono hlog).runs_removeHit hb (hashHit_eq hu.respects2)
      (fun hn w' hw hreq _ => ?_) ?_
    · rw [find_shown_none hn]
      refine ⟨rfl, hreq, rfl, os, hr.mono (hlog.trans hw), ?_⟩
      rw [FMap.erase_of_absent (hs.marked.absent_iff.mpr ((hfind _).trans (find_shown_none hn)))]
      exact hs
    · rintro l₁ x l₂ h' w' rfl hn hx hr' hu' hw hreq -
      rw [find_shown hn hx]
      exact ⟨hu', hreq, rfl, _, hr', hs.remove hu hb hx⟩
  unfold hiRemove lhiRemoveList
  rcases hu.engine with he | he <;>
  · simp only [he, runs_bind, runs_mutexLock, runs_bucketOf hu.tableSize, runs_hash2 hu.hash2Func]
      at hremove ⊢
    exact hremove

/-- The word of the object's block decides whether the pair is kept. -/
theorem hashed_insert (hquiet : ¬ h.Due) (hw : w.AllocsSucceed) : Total (hiInsert h k.bytes k.keylen d) w fun r w' =>
    r.2.toUserSettings = h.toUserSettings ∧
      w'.requests = w.requests + (MapOp.insert k d).requests s.1 ∧
      ⟨r.1, none⟩ = (hashedStep h.collEng s
        (.insert k d, (MapOp.insert k d).meets f (w.keyHashWord w.requests))).1 ∧
      ∃ os', ListRep r.2 w' os' ∧ Split f (hashedStep h.collEng s
        (.insert k d, (MapOp.insert k d).meets f (w.keyHashWord w.requests))).2 os' := by
  unfold hiInsert hiInsertWith
  refine Runs.bind (hashed_lookup hu hr hs) fun ret w₁ hw₁ hret => ?_
  rw [hashedStep, MapOp.requests]
  obtain ⟨hreq, ⟨rfl, ha⟩ | ⟨hne, ha⟩⟩ := hret
  · rw [if_pos rfl, dif_neg ha, if_neg ha]
    exact ⟨rfl, hreq, rfl, os, hr.mono hw₁, hs⟩
  · rw [if_neg hne, dif_pos ha, if_pos ha]
    refine runs_bind.mpr
      (runs_doRehash hu.tableSize (fun hdue => (hquiet hdue).elim) fun _ => ?_)
    obtain ⟨l, hb⟩ := hr.exists_bucket hu.tableSize k
    have hinsert : Total (lhiInsertList h k.bytes k.keylen d) w₁ fun r w' =>
        r.2.toUserSettings = h.toUserSettings ∧ w'.requests = w.requests + 2 ∧
          (⟨r.1, none⟩ : Result δ) = ⟨success, none⟩ ∧ ∃ os', ListRep r.2 w' os' ∧
          Split f (if (MapOp.insert k d).meets f (w.keyHashWord w.requests)
            then (s.1.insertNew k d ha, s.2) else (s.1, (k, d) :: s.2)) os' := by
      refine (hr.mono hw₁).runs_lhiInsertList hu.tableSize hb
        (fun _ _ _ _ _ _ hrefused => (hrefused.not_allocsSucceed (hw.mono hw₁)).elim) ?_
      rintro x h' w' junk rfl rfl hjunk hhash hr' hu' - hserved -
      have hmeets : (MapOp.insert x.key x.data).meets f (w.keyHashWord w.requests) = x.marked f := by
        rw [MapOp.meets, Obj.marked, ← hreq, ← World.keyHashWord_mono hw₁, World.keyHashWord_eq hjunk,
          hhash]
      refine ⟨hu', by rw [hserved.requests, hreq], rfl, _, hr', ?_⟩
      rw [hmeets]
      exact hs.insert hu hr.table hb ha
    unfold engineInsert
    rcases hu.engine with he | he <;>
    · simp only [he] at hinsert ⊢
      exact hinsert

end Engine

/-- One call that does not rehash answers as the abstract table does, and leaves one that shows the
table after it. -/
theorem runs_hashed_call (hu : HashedList h.toUserSettings f) (hr : ListRep h w os)
    (hs : Split f s os) (hw : w.AllocsSucceed) (op : MapOp δ)
    (hquiet : ∀ k d, op = .insert k d → ¬ h.Due) : Total (op.call h) w fun r w' =>
      r.2.toUserSettings = h.toUserSettings ∧ w'.requests = w.requests + op.requests s.1 ∧
      r.1 = (hashedStep h.collEng s (op, op.meets f (w.keyHashWord w.requests))).1 ∧
      ∃ os', ListRep r.2 w' os' ∧
        Split f (hashedStep h.collEng s (op, op.meets f (w.keyHashWord w.requests))).2 os' := by
  cases op with
  | insert k d => exact runs_bind.mpr (hashed_insert hu hr hs (hquiet k d rfl) hw)
  | get k => exact hashed_get hu hr hs
  | remove k => exact hashed_remove hu hr hs

end Calls

/-- A run of calls. A table with `rehash_auto` set may rehash at insertions only. -/
theorem runs_hashed_calls {u : UserSettings} {f : HashFunc} (hu : HashedList u f)
    (ops : List (MapOp δ)) {h : HiHandle δ} {w : World} {os : List (List (Obj δ))}
    {s : KeyMap u.keyCmp δ × List (Key × δ)} (hset : h.toUserSettings = u) (hr : ListRep h w os)
    (hs : Split f s os) (hw : w.AllocsSucceed)
    (hauto : ∀ k d, .insert k d ∈ ops → u.rehashAuto = 0) :
    Total (Prog.calls MapOp.call ops h) w fun r w' => r.2.toUserSettings = u ∧
      r.1 = (Machine.runStep (hashedStep u.collEng) s
        (markedCalls u.collEng f w.keyHashWord s w.requests ops)).1 ∧
      ∃ os', ListRep r.2 w' os' ∧ Split f (Machine.runStep (hashedStep u.collEng) s
        (markedCalls u.collEng f w.keyHashWord s w.requests ops)).2 os' := by
  induction ops generalizing h w os s with
  | nil => exact ⟨hset, rfl, os, hr, hs⟩
  | cons op ops ih =>
    subst hset
    have hquiet : ∀ k d, op = .insert k d → ¬ h.Due := by
      rintro k d rfl hdue
      exact hdue.1 (hauto k d List.mem_cons_self)
    refine runs_calls_cons ((runs_hashed_call hu hr hs hw op hquiet).and_grows.imp fun r w₁ h₁ => ?_)
    obtain ⟨hw₁, hset, hreq, hans, os₁, hr₁, hs₁⟩ := h₁
    have hrest := ih hset hr₁ hs₁ (hw.mono hw₁) fun k d hop => hauto k d (.tail _ hop)
    refine hrest.imp fun r' w₂ h₂ => ?_
    rw [World.keyHashWord_mono hw₁, hreq] at h₂
    obtain ⟨hset', hrest, os₂, hr₂, hs₂⟩ := h₂
    refine ⟨hset', ?_, os₂, hr₂, hs₂⟩
    rw [markedCalls, Machine.runStep, hans, hrest]

/-! ## Sessions -/

/-- The settings of a table with a second hash. -/
structure SecondHash (s : HiInitSet) (f f2 : HashFunc) (cmp : KeyCmp) : Prop where
  engine : s.collEng = .listHash ∨ s.collEng = .listMtfHash
  tableSize : s.tableSize ≠ 0
  hashFunc : s.hashFunc = some f
  hash2Func : s.hash2Func = some f2
  differ : f.addr ≠ f2.addr
  keyCmp : s.keyCmp = some cmp
  equivalence : Equivalence cmp.same
  respects : f.Respects cmp fun _ => True
  respects2 : f2.Respects cmp fun _ => True

/-- The settings of a table with a second hash that never rehashes. -/
structure HashListSettings (s : HiInitSet) (f f2 : HashFunc) (cmp : KeyCmp) : Prop
    extends SecondHash s f f2 cmp where
  rehashAuto : s.rehashAuto = 0

section Sessions

variable {s : HiInitSet} {f f2 : HashFunc} {w : World}

/-- The settings that the handle gets. -/
def hashListUser (s : HiInitSet) (f f2 : HashFunc) (cmp : KeyCmp) : UserSettings :=
  ⟨s.tableSize, s.collEng, s.rehashAuto, s.rehashThreshold, s.collEngArraySize, f, some f2, cmp⟩

theorem SecondHash.check (hs : SecondHash s f f2 cmp) :
    lhiSetSanityCheck s = .ok (hashListUser s f f2 cmp) := by
  have hash2 : lhiSetSanityHash2 s = success := by
    simp [lhiSetSanityHash2, hs.hash2Func, hs.hashFunc, hs.differ]
  rw [hashListUser, ← hs.hash2Func]
  rcases hs.engine with he | he <;>
    simp [lhiSetSanityCheck, hs.tableSize, hs.hashFunc, hs.keyCmp, he, hash2]

theorem SecondHash.user (hs : SecondHash s f f2 cmp) :
    HashedList (hashListUser s f f2 cmp) f2 :=
  ⟨hs.engine, rfl, hs.tableSize, hs.equivalence, hs.respects, hs.respects2⟩

theorem Split.empty {n : Nat} :
    Split f2 ((.empty, []) : KeyMap cmp δ × List (Key × δ)) (List.replicate n []) := by
  have hshown : ∀ p : Obj δ → Bool, (shown p (List.replicate n [])).flatten = [] := by
    simp [shown]
  refine ⟨?_, ?_, fun q => ?_⟩
  · rw [hshown]
    exact .refl _
  · rw [hshown]
    exact .refl _
  · rw [hshown]
    rfl

theorem createEng_hashed {u : UserSettings} {p lock : Ptr} {sizes : Fresh} (hu : HashedList u f2) :
    createEng (HiHandle.ofSettings u p sizes lock : HiHandle δ) =
      lhiCreateEngList (HiHandle.ofSettings u p sizes lock) := by
  unfold createEng
  rcases hu.engine with he | he <;>
  · rw [show (HiHandle.ofSettings u p sizes lock : HiHandle δ).collEng = _ from he]

/-- A new handle links empty chains. -/
theorem runs_hiCreate_hashed (hs : SecondHash s f f2 cmp) (hw : w.AllocsSucceed) :
    Total (hiCreate s : Prog (Except Int (HiHandle δ))) w fun r w' => ∃ h, r = .ok h ∧
      w'.requests = w.requests + createRequests ∧ h.toUserSettings = hashListUser s f f2 cmp ∧
      ListRep h w' (List.replicate s.tableSize.toNat []) := by
  unfold hiCreate lhiCreateVanillaHdnl createWith
  rw [hs.check]
  refine runs_bind.mpr (runs_bind.mpr (runs_xallocAlign (fun _ _ _ _ h _ => (h hw).elim) ?_))
  intro junk₁ w₁ hw₁ hreq₁ _
  refine runs_bind.mpr (runs_xallocAlign (fun _ _ _ _ h _ => (h (hw.mono hw₁)).elim) ?_)
  intro junk₂ w₂ hw₂ hreq₂ _
  have hw₂' := hw.mono (hw₁.trans hw₂)
  refine runs_bind.mpr (runs_lhiPthreadLockInit_refused
    (fun _ _ _ _ _ h => (h.not_allocsSucceed hw₂').elim) ?_)
  intro lock w₃ hw₃ hserved₃ _
  dsimp only
  rw [createEng_hashed hs.user]
  refine ListRep.runs_lhiCreateEngList (fun _ _ h => (h (hw₂'.mono hw₃)).elim)
    fun h' w' _ hserved hr hu _ => ⟨h', rfl, ?_, hu, hr⟩
  rw [hserved.requests, hserved₃.requests, hreq₂, hreq₁, createRequests]

theorem runs_hashed_session (hs : SecondHash s f f2 cmp) (hw : w.AllocsSucceed)
    (ops : List (MapOp δ)) (hauto : ∀ k d, .insert k d ∈ ops → s.rehashAuto = 0) :
    Total (session s ops) w fun r w' => ∃ h os,
      r = .ok ((hashedRun s.collEng cmp (hashedCalls s.collEng cmp f2 w ops)).1, h) ∧ ListRep h w' os ∧
      Split f2 (hashedRun s.collEng cmp (hashedCalls s.collEng cmp f2 w ops)).2 os := by
  unfold session
  refine Runs.bind (runs_hiCreate_hashed hs hw) fun r w₁ hw₁ h₁ => ?_
  obtain ⟨h, rfl, hreq, hu, hr⟩ := h₁
  have hcalls := runs_hashed_calls hs.user ops hu hr Split.empty (hw.mono hw₁) hauto
  rw [World.keyHashWord_mono hw₁, hreq] at hcalls
  refine runs_bind.mpr (hcalls.imp ?_)
  rintro ⟨rs, h'⟩ w₂ ⟨-, rfl, os, hr', hsplit⟩
  exact ⟨h', os, rfl, hr', hsplit⟩

theorem HashListSettings.runs_session (hs : HashListSettings s f f2 cmp) (hw : w.AllocsSucceed)
    (ops : List (MapOp δ)) :
    Total (session s ops) w fun r w' => ∃ h os,
      r = .ok ((hashedRun s.collEng cmp (hashedCalls s.collEng cmp f2 w ops)).1, h) ∧ ListRep h w' os ∧
      Split f2 (hashedRun s.collEng cmp (hashedCalls s.collEng cmp f2 w ops)).2 os :=
  runs_hashed_session hs.toSecondHash hw ops fun _ _ _ => hs.rehashAuto

/-- The objects with and without a mark are all objects. -/
theorem shown_perm (f2 : HashFunc) (os : List (List (Obj δ))) :
    ((shown (Obj.marked f2) os).flatten ++ (shown (Obj.unmarked f2) os).flatten).Perm
      (contents os).flatten := by
  induction os with
  | nil => exact .refl _
  | cons l os ih =>
    have hsplit : (l.filter (Obj.marked f2) ++ l.filter (Obj.unmarked f2)).Perm l := by
      rw [show (Obj.unmarked f2 : Obj δ → Bool) = fun x => !x.marked f2 from
        funext (Obj.unmarked_eq f2)]
      exact List.filter_append_perm _ _
    have hhead := hsplit.map Obj.toStored
    rw [List.map_append] at hhead
    rw [shown, shown, contents, List.map_cons, List.map_cons, List.map_cons, List.flatten_cons,
      List.flatten_cons, List.flatten_cons, List.append_assoc]
    refine List.Perm.trans ?_ (hhead.append ih)
    rw [List.append_assoc]
    exact (List.perm_append_comm_assoc _ _ _).append_left _

/-- A table with two hash functions that give every key the same values. -/
def twoHashes : HiInitSet := { hiSetZero with
  tableSize := 2, collEng := .listHash, hashFunc := some ⟨0, lhiHashDumb1⟩,
  hash2Func := some ⟨1, fun _ => 7⟩, keyCmp := some hiCmpUint16T }

theorem twoHashes_settings :
    HashListSettings twoHashes ⟨0, lhiHashDumb1⟩ ⟨1, fun _ => 7⟩ hiCmpUint16T where
  engine := .inl rfl
  tableSize := by decide
  rehashAuto := rfl
  hashFunc := rfl
  hash2Func := rfl
  differ := by decide
  keyCmp := rfl
  equivalence := orderOn_hiCmpUint16T.equivalence
  respects := fun _ _ _ _ _ => rfl
  respects2 := fun _ _ _ _ _ => rfl

/-- Every run on a table with a second hash is one of a map that loses the pairs whose insertion meets
a wrong word. The word is the one that the object's block has at `key_hash`. The objects in the chains
are the pairs of the map, with a mark, and the lost ones, without. The table counts both. -/
theorem hash_lists_run (hs : HashListSettings s f f2 cmp) (hw : w.AllocsSucceed)
    (ops : List (MapOp δ)) :
    Total (session s ops) w fun r w' => ∃ h os,
      r = .ok ((hashedRun s.collEng cmp (hashedCalls s.collEng cmp f2 w ops)).1, h) ∧ ListRep h w' os ∧
      Holds (hashedRun s.collEng cmp (hashedCalls s.collEng cmp f2 w ops)).2.1
        (shown (Obj.marked f2) os).flatten ∧
      (hashedRun s.collEng cmp (hashedCalls s.collEng cmp f2 w ops)).2.2.Perm
        ((shown (Obj.unmarked f2) os).flatten.map Stored.pair) ∧
      h.noObjects = UInt32.ofNat
        ((hashedRun s.collEng cmp (hashedCalls s.collEng cmp f2 w ops)).2.1.size +
          (hashedRun s.collEng cmp (hashedCalls s.collEng cmp f2 w ops)).2.2.length) := by
  refine (hs.runs_session hw ops).imp ?_
  rintro r w' ⟨h, os, hans, hr, hsplit⟩
  refine ⟨h, os, hans, hr, hsplit.marked, hsplit.lost, ?_⟩
  have hcount := (shown_perm f2 os).length_eq
  rw [List.length_append, contents, ← List.map_flatten, List.length_map] at hcount
  rw [hr.count, hsplit.marked.size, hsplit.lost.length_eq, List.length_map, hcount]

/-- The second of two colliding keys meets a wrong word. -/
theorem hash_lists_run_two :
    Total (session twoHashes [.insert ⟨[1, 0], by decide⟩ "one", .insert ⟨[2, 0], by decide⟩ "two",
        .get ⟨[1, 0], by decide⟩, .get ⟨[2, 0], by decide⟩])
      (World.start fun n _ => if n = 5 then 7 else 0) fun r _ => ∃ h : HiHandle String,
        r = .ok ([⟨success, none⟩, ⟨success, none⟩, ⟨success, some "one"⟩, ⟨hiErrNokey, none⟩], h) ∧
        h.noObjects = 2 := by
  refine (hash_lists_run twoHashes_settings (World.start_allocsSucceed _) _).imp ?_
  rintro r w' ⟨h, os, rfl, -, -, -, hcount⟩
  exact ⟨h, rfl, hcount⟩

end Sessions

/-! ## When `COLL_ENG_LIST_HASH` is a map -/

/-- A handle links its objects in one way. -/
theorem ListRep.unique {h : HiHandle δ} {w w' : World} {os os' : List (List (Obj δ))}
    (hr : ListRep h w os) (hr' : ListRep h w' os') : os = os' := by
  have hlen : os.length = os'.length := hr.tableLength.symm.trans hr'.tableLength
  -- A linked block shows one key, one datum and one word.
  have hshows : ∀ {o : HiBucketHlObj δ} {x y : Obj δ}, (objLinkage δ).self x = (objLinkage δ).self y →
      (objLinkage δ).shows o x → (objLinkage δ).shows o y → x = y := by
    rintro o ⟨⟨⟨kx, _⟩, dx, ax⟩, px, vx⟩ ⟨⟨⟨ky, _⟩, dy, ay⟩, py, vy⟩ hself ⟨hx, hvx⟩ ⟨hy, hvy⟩
    obtain rfl : px = py := hself
    obtain rfl : vx = vy := hvx.symm.trans hvy
    have hentry := hx.symm.trans hy
    simp only [Stored.entry, Entry.mk.injEq, Block.mk.injEq, Option.some_inj] at hentry
    obtain ⟨-, ⟨rfl, rfl⟩, rfl⟩ := hentry
    rfl
  refine List.ext_getElem hlen fun b hb hb' => ?_
  obtain ⟨p, hp, hc⟩ := hr.chains b _ (List.getElem?_eq_getElem hb)
  obtain ⟨p', hp', hc'⟩ := hr'.chains b _ (List.getElem?_eq_getElem hb')
  obtain rfl : p = p' := Option.some_inj.mp (hp.symm.trans hp')
  exact Linkage.Chain.unique hshows hc hc'

theorem hashedStep_suffix (e : CollEng) (s : KeyMap cmp δ × List (Key × δ))
    (call : MapOp δ × Bool) : s.2 <:+ (hashedStep e s call).2.2 := by
  obtain ⟨op, kept⟩ := call
  cases op with
  | insert k d =>
    rw [hashedStep]
    split
    · cases kept
      · exact List.suffix_cons _ _
      · exact List.suffix_refl _
    · exact List.suffix_refl _
  | get k => exact List.suffix_refl _
  | remove k => exact List.suffix_refl _

/-- What is lost stays lost. -/
theorem hashedRun_suffix (e : CollEng) (s : KeyMap cmp δ × List (Key × δ))
    (calls : List (MapOp δ × Bool)) : s.2 <:+ (Machine.runStep (hashedStep e) s calls).2.2 :=
  Machine.runStep_keeps (I := fun t : KeyMap cmp δ × List (Key × δ) => s.2 <:+ t.2)
    (fun t call _ h => h.trans (hashedStep_suffix e t call)) (List.suffix_refl _)

/-- A call after which nothing is lost is one on the map. -/
theorem hashedStep_of_no_loss {s : KeyMap cmp δ × List (Key × δ)} {op : MapOp δ} {kept : Bool}
    (h : (hashedStep .listHash s (op, kept)).2.2 = []) :
    hashedStep .listHash s (op, kept) = ((mapStep s.1 op).1, ((mapStep s.1 op).2, [])) := by
  have hlost : s.2 = [] := List.suffix_nil.mp
    (h ▸ hashedStep_suffix .listHash s (op, kept))
  obtain ⟨m, lost⟩ := s
  obtain rfl : lost = [] := hlost
  cases op with
  | insert k d =>
    rw [hashedStep] at h ⊢
    rw [mapStep]
    by_cases ha : m.Absent k
    · rw [dif_pos ha] at h ⊢
      cases kept
      · cases h
      · rw [dif_pos ha]
        rfl
    · rw [dif_neg ha, dif_neg ha]
  | get k => rfl
  | remove k => rfl

theorem hashedRun_of_no_loss {s : KeyMap cmp δ × List (Key × δ)} {calls : List (MapOp δ × Bool)}
    (h : (Machine.runStep (hashedStep .listHash) s calls).2.2 = []) :
    (Machine.runStep (hashedStep .listHash) s calls).1 = (mapRun s.1 (calls.map Prod.fst)).1 := by
  induction calls generalizing s with
  | nil => rfl
  | cons call calls ih =>
    obtain ⟨op, kept⟩ := call
    have hstep := hashedStep_of_no_loss (List.suffix_nil.mp (h ▸ hashedRun_suffix .listHash _ calls :
      (hashedStep .listHash s (op, kept)).2.2 <:+ []))
    have hrest := ih h
    rw [hstep] at hrest
    rw [Machine.runStep, hstep, hrest]
    rfl

/-- Objects without a mark are lost. -/
theorem Split.marked_of_nil {f : HashFunc} {s : KeyMap cmp δ × List (Key × δ)}
    {os : List (List (Obj δ))} (hs : Split f s os) (hnil : s.2 = []) :
    ∀ x ∈ os.flatten, x.keyHash = f.hash x.key := by
  intro x hx
  by_contra hne
  obtain ⟨l, hl, hxl⟩ := List.mem_flatten.mp hx
  have hun : x.unmarked f = true := by simpa [Obj.unmarked] using Ne.symm hne
  have hmem : x.toStored ∈ (shown (Obj.unmarked f) os).flatten :=
    List.mem_flatten.mpr ⟨_, List.mem_map_of_mem hl,
      List.mem_map_of_mem (List.mem_filter.mpr ⟨hxl, hun⟩)⟩
  have hlost := hs.lost.mem_iff.mpr (List.mem_map_of_mem hmem)
  rw [hnil] at hlost
  cases hlost

theorem lost_eq_nil {f : HashFunc} {lost : List (Key × δ)} {os : List (List (Obj δ))}
    (hlost : lost.Perm ((shown (Obj.unmarked f) os).flatten.map Stored.pair))
    (hall : ∀ x ∈ os.flatten, x.keyHash = f.hash x.key) : lost = [] := by
  have hnone : (shown (Obj.unmarked f) os).flatten = [] := by
    refine List.eq_nil_iff_forall_not_mem.mpr fun y hy => ?_
    obtain ⟨l', hl', hyl⟩ := List.mem_flatten.mp hy
    obtain ⟨l, hl, rfl⟩ := List.mem_map.mp hl'
    obtain ⟨x, hx, -⟩ := List.mem_map.mp hyl
    obtain ⟨hxl, hun⟩ := List.mem_filter.mp hx
    rw [Obj.unmarked, hall x (List.mem_flatten.mpr ⟨l, hl, hxl⟩)] at hun
    simp at hun
  rw [hnone] at hlost
  exact hlost.eq_nil

/-- The next call does not find a lost pair. -/
theorem get_misses_lost {u : UserSettings} {f : HashFunc} (hu : HashedList u f)
    (he : u.collEng = .listHash) {h : HiHandle δ} {w : World} {os : List (List (Obj δ))}
    {m : KeyMap u.keyCmp δ} {lost : List (Key × δ)} {k : Key} (hset : h.toUserSettings = u)
    (hr : ListRep h w os) (hs : Split f (m, lost) os) (hw : w.AllocsSucceed) (ha : m.Absent k) :
    Total (Prog.calls MapOp.call [.get k] h) w fun r _ => r.1 = [⟨hiErrNokey, none⟩] := by
  refine (runs_hashed_calls hu [.get k] hset hr hs hw fun _ _ => by simp).imp ?_
  rintro r w' ⟨-, hans, -⟩
  rw [hans, markedCalls, Machine.runStep, hashedStep, if_neg (by rw [he]; decide),
    FMap.get_of_absent ha]
  rfl

theorem mapRun_get_inserted {m : KeyMap cmp δ} {k : Key} {d : δ} (heq : Equivalence cmp.same)
    (ha : m.Absent k) : (mapRun (mapStep m (.insert k d)).2 [.get k]).1 = [⟨success, some d⟩] := by
  have hself := FMap.get_insertNew_self (v := d) (heq.refl k) ha
  simp [mapRun, Machine.runStep, mapStep, ha, hself, answerOf]

/-- A table that answers as a map loses nothing: the first insertion that met a wrong word would not
be found by the next call. -/
theorem marked_of_answers {u : UserSettings} {f : HashFunc} (hu : HashedList u f)
    (he : u.collEng = .listHash) (hauto : u.rehashAuto = 0) (ops : List (MapOp δ)) {h : HiHandle δ} {w : World}
    {os : List (List (Obj δ))} {m : KeyMap u.keyCmp δ} (hset : h.toUserSettings = u)
    (hr : ListRep h w os) (hs : Split f (m, []) os) (hw : w.AllocsSucceed)
    (hans : ∀ ops', Total (Prog.calls MapOp.call ops' h) w fun r _ => r.1 = (mapRun m ops').1) :
    Total (Prog.calls MapOp.call ops h) w fun r w' => ∃ os', ListRep r.2 w' os' ∧
      ∀ x ∈ os'.flatten, x.keyHash = f.hash x.key := by
  induction ops generalizing h w os m with
  | nil => exact ⟨os, hr, hs.marked_of_nil rfl⟩
  | cons op ops ih =>
    subst hset
    obtain ⟨r, w₁, hrun, hw₁, hset, -, -, os₁, hr₁, hs₁⟩ :=
      total_iff.mp
        (runs_hashed_call hu hr hs hw op fun _ _ _ hdue => hdue.1 hauto).and_grows
    -- What the table answers after the call.
    have hrest : ∀ ops', Total (Prog.calls MapOp.call ops' r.2) w₁ fun r' _ =>
        r'.1 = (mapRun (mapStep m op).2 ops').1 := fun ops' =>
      (runs_bind.mp ((runs_bind.mp (hans (op :: ops'))).of_run hrun)).imp fun _ _ heq =>
        (List.cons.inj heq).2
    have hkept : (hashedStep h.collEng (m, [])
        (op, op.meets f (w.keyHashWord w.requests))).2.2 = [] := by
      cases op with
      | insert k d =>
        rw [hashedStep] at hs₁ ⊢
        by_cases ha : m.Absent k
        · rw [dif_pos ha] at hs₁ ⊢
          cases hkept : (MapOp.insert k d).meets f (w.keyHashWord w.requests) with
          | true => rfl
          | false =>
            rw [hkept, if_neg Bool.false_ne_true] at hs₁
            -- A lookup of the lost pair misses it, and the map has it.
            obtain ⟨r', w₂, -, hmiss, hfound⟩ := total_iff.mp
              ((get_misses_lost hu he hset hr₁ hs₁ (hw.mono hw₁) ha).and_returned
                ((hrest [.get k]).mono_fault fun _ => False.elim))
            rw [hmiss, mapRun_get_inserted hu.equivalence ha] at hfound
            cases hfound
        · rw [dif_neg ha]
      | get k => rfl
      | remove k => rfl
    rw [show h.collEng = .listHash from he] at hkept hs₁
    rw [hashedStep_of_no_loss hkept] at hs₁
    exact runs_calls_cons (total_iff.mpr ⟨r, w₁, hrun, ih hset hr₁ hs₁ (hw.mono hw₁) hrest⟩)

/-- `COLL_ENG_LIST_HASH` answers as a map exactly where the memory of new objects happens to hold the
second hash of their keys. -/
theorem hash_list_is_map_iff {s : HiInitSet} {f f2 : HashFunc} {w : World}
    (hs : HashListSettings s f f2 cmp) (he : s.collEng = .listHash) (hw : w.AllocsSucceed) :
    (∀ ops : List (MapOp δ), Total (session s ops) w fun r _ =>
      ∃ h, r = .ok ((mapSession cmp ops).1, h)) ↔
    ∀ ops : List (MapOp δ), Total (session s ops) w fun r w' => ∃ rs h os, r = .ok (rs, h) ∧
      ListRep h w' os ∧ ∀ x ∈ os.flatten, x.keyHash = f2.hash x.key := by
  constructor
  · intro hall ops
    obtain ⟨_, w₁, hrun, hw₁, h, rfl, -, hu, hr⟩ :=
      total_iff.mp (runs_hiCreate_hashed (δ := δ) hs.toSecondHash hw).and_grows
    have hans : ∀ ops', Total (Prog.calls MapOp.call ops' h) w₁ fun r _ =>
        r.1 = (mapRun (.empty : KeyMap cmp δ) ops').1 := fun ops' =>
      (runs_bind.mp ((runs_bind.mp (hall ops')).of_run hrun)).imp fun r' _ heq => by
        obtain ⟨h', heq⟩ := heq
        cases heq
        rfl
    have hmarked := marked_of_answers hs.user he hs.rehashAuto ops hu hr Split.empty (hw.mono hw₁) hans
    refine runs_bind.mpr (total_iff.mpr ⟨_, w₁, hrun, runs_bind.mpr (hmarked.imp ?_)⟩)
    rintro r w₂ ⟨os, hr', hm⟩
    exact ⟨r.1, r.2, os, rfl, hr', hm⟩
  · intro hall ops
    refine ((hs.runs_session hw ops).and_returned
      ((hall ops).mono_fault fun _ => False.elim)).imp ?_
    rintro r w' ⟨⟨h, os, rfl, hr, hsplit⟩, rs, h', os', heq, hr', hm⟩
    obtain rfl : h = h' := congrArg Prod.snd (Except.ok.inj heq)
    obtain rfl := hr.unique hr'
    have hlost := lost_eq_nil hsplit.lost hm
    rw [he] at hlost ⊢
    refine ⟨h, ?_⟩
    rw [hashedRun, hashedRun_of_no_loss hlost, hashedCalls_fst]
    rfl

/-- Where every insertion meets the right word, nothing is lost. -/
theorem runStep_kept {s : KeyMap cmp δ × List (Key × δ)} {calls : List (MapOp δ × Bool)}
    (hcalls : ∀ call ∈ calls, call.2 = true) (hs : s.2 = []) :
    (Machine.runStep (hashedStep .listHash) s calls).2.2 = [] := by
  refine Machine.runStep_keeps (I := fun s : KeyMap cmp δ × List (Key × δ) => s.2 = [])
    (fun s call hcall hs => ?_) hs
  obtain ⟨op, kept⟩ := call
  obtain rfl : kept = true := hcalls _ hcall
  cases op with
  | insert k d =>
    rw [hashedStep]
    split
    · exact hs
    · exact hs
  | get k => exact hs
  | remove k => exact hs

theorem markedCalls_kept {e : CollEng} {f : HashFunc} {word : Nat → UInt32}
    (hword : ∀ k n, f.hash k = word n) {s : KeyMap cmp δ × List (Key × δ)} {n : Nat}
    {ops : List (MapOp δ)} : ∀ call ∈ markedCalls e f word s n ops, call.2 = true := by
  induction ops generalizing s n with
  | nil => nofun
  | cons op ops ih =>
    rw [markedCalls]
    refine List.forall_mem_cons.mpr ⟨?_, ih⟩
    cases op with
    | insert k d => exact decide_eq_true (hword k n)
    | get k => rfl
    | remove k => rfl

/-- Two colliding keys, in a world where every block is full of the only value of the second hash. -/
theorem hash_list_is_map_iff_two :
    Total (session twoHashes [.insert ⟨[1, 0], by decide⟩ "one", .insert ⟨[2, 0], by decide⟩ "two",
        .get ⟨[1, 0], by decide⟩, .insert ⟨[1, 0], by decide⟩ "uno", .remove ⟨[2, 0], by decide⟩,
        .get ⟨[2, 0], by decide⟩])
      (World.start fun _ _ => 7) fun r _ => ∃ h, r = .ok ([⟨success, none⟩, ⟨success, none⟩,
        ⟨success, some "one"⟩, ⟨hiErrDupkey, none⟩, ⟨success, some "two"⟩, ⟨hiErrNokey, none⟩],
        h) := by
  have hmap := (hash_list_is_map_iff (δ := String) twoHashes_settings rfl
    (World.start_allocsSucceed fun _ _ => 7)).mpr fun ops => by
      refine (twoHashes_settings.runs_session (World.start_allocsSucceed _) ops).imp ?_
      rintro r w' ⟨h, os, rfl, hr, hsplit⟩
      exact ⟨_, h, os, rfl, hr,
        hsplit.marked_of_nil (runStep_kept (markedCalls_kept fun _ _ => rfl) rfl)⟩
  exact hmap [.insert ⟨[1, 0], by decide⟩ "one", .insert ⟨[2, 0], by decide⟩ "two",
    .get ⟨[1, 0], by decide⟩, .insert ⟨[1, 0], by decide⟩ "uno", .remove ⟨[2, 0], by decide⟩,
    .get ⟨[2, 0], by decide⟩]

/-! ## `COLL_ENG_LIST_MTF_HASH` -/

/-- No pair has the key, lost or not. -/
def LacksKey (s : KeyMap cmp δ × List (Key × δ)) (k : Key) : Prop :=
  s.1.Absent k ∧ ∀ p ∈ s.2, ¬ cmp.same k p.1

/-- The call does not insert the key. -/
def MapOp.Spares (cmp : KeyCmp) (k : Key) (op : MapOp δ) : Prop :=
  ∀ k' d', op = .insert k' d' → ¬ cmp.same k k'

theorem mapStep_spares {m : KeyMap cmp δ} {k : Key} {op : MapOp δ} (hop : op.Spares cmp k)
    (hm : m.Absent k) : (mapStep m op).2.Absent k := by
  cases op with
  | insert k' d' =>
    rw [mapStep]
    split
    next ha => exact hm.insertNew (hop k' d' rfl) ha
    next => exact hm
  | get k' => exact hm
  | remove k' => exact hm.erase

theorem mapRun_spares {m : KeyMap cmp δ} {k : Key} {ops : List (MapOp δ)}
    (hops : ∀ op ∈ ops, op.Spares cmp k) (hm : m.Absent k) : (mapRun m ops).2.Absent k :=
  Machine.runStep_keeps (I := fun m : KeyMap cmp δ => m.Absent k)
    (fun _ op hop => mapStep_spares (hops op hop)) hm

theorem hashedStep_spares {e : CollEng} {s : KeyMap cmp δ × List (Key × δ)} {k : Key}
    {call : MapOp δ × Bool} (hop : call.1.Spares cmp k) (hs : LacksKey s k) :
    LacksKey (hashedStep e s call).2 k := by
  obtain ⟨op, kept⟩ := call
  cases op with
  | insert k' d' =>
    have hne := hop k' d' rfl
    rw [hashedStep]
    split
    next ha =>
      cases kept
      · exact ⟨hs.1, List.forall_mem_cons.mpr ⟨hne, hs.2⟩⟩
      · exact ⟨hs.1.insertNew hne ha, hs.2⟩
    next => exact hs
  | get k' => exact hs
  | remove k' => exact ⟨hs.1.erase, hs.2⟩

theorem hashedRun_spares {e : CollEng} {s : KeyMap cmp δ × List (Key × δ)} {k : Key}
    {calls : List (MapOp δ × Bool)} (hcalls : ∀ call ∈ calls, call.1.Spares cmp k)
    (hs : LacksKey s k) : LacksKey (Machine.runStep (hashedStep e) s calls).2 k :=
  Machine.runStep_keeps (I := fun s => LacksKey s k)
    (fun _ call hcall => hashedStep_spares (hcalls call hcall)) hs

theorem mapRun_new_key {m : KeyMap cmp δ} {k : Key} {d : δ} (heq : Equivalence cmp.same)
    (hm : m.Absent k) : (mapRun m [.insert k d, .get k, .remove k]).1 =
      [⟨success, none⟩, ⟨success, some d⟩, ⟨success, some d⟩] := by
  have hself := FMap.get_insertNew_self (v := d) (heq.refl k) hm
  simp [mapRun, Machine.runStep, mapStep, hm, hself, answerOf]

/-- A new key is found by the lookup when its pair is lost, and by the removal when it is not. -/
theorem hashedRun_new_key {s : KeyMap cmp δ × List (Key × δ)} {k : Key} {d : δ} {a b c : Bool}
    (heq : Equivalence cmp.same) (hs : LacksKey s k) :
    (Machine.runStep (hashedStep .listMtfHash) s
        [(.insert k d, a), (.get k, b), (.remove k, c)]).1 =
      if a then [⟨success, none⟩, ⟨hiErrNokey, none⟩, ⟨success, some d⟩]
      else [⟨success, none⟩, ⟨success, some d⟩, ⟨hiErrNokey, none⟩] := by
  obtain ⟨ha, hlost⟩ := hs
  cases a with
  | false =>
    have hfound : lostGet cmp ((k, d) :: s.2) k = some (k, d) := by
      simp [lostGet, heq.refl k]
    simp [Machine.runStep, hashedStep, ha, hfound, FMap.get_of_absent ha, answerOf]
  | true =>
    have hmiss : lostGet cmp s.2 k = none :=
      List.find?_eq_none.mpr fun p hp => by simpa using hlost p hp
    have hself := FMap.get_insertNew_self (v := d) (heq.refl k) ha
    simp [Machine.runStep, hashedStep, ha, hmiss, hself, answerOf]

/-- `COLL_ENG_LIST_MTF_HASH` never answers as a map. A new key that was stored is found either by the
next lookup or by the removal after it, but not by both. -/
theorem mtf_hash_list_forgets {s : HiInitSet} {f f2 : HashFunc} {w : World}
    (hs : HashListSettings s f f2 cmp) (he : s.collEng = .listMtfHash) (hw : w.AllocsSucceed)
    (ops : List (MapOp δ)) {k : Key} {d : δ} (hops : ∀ op ∈ ops, op.Spares cmp k) :
    Total (session s (ops ++ [.insert k d, .get k, .remove k])) w fun r _ => ∃ rs rs₀ h,
      r = .ok (rs, h) ∧ rs ≠ (mapSession cmp (ops ++ [.insert k d, .get k, .remove k])).1 ∧
      (rs = rs₀ ++ [⟨success, none⟩, ⟨success, some d⟩, ⟨hiErrNokey, none⟩] ∨
        rs = rs₀ ++ [⟨success, none⟩, ⟨hiErrNokey, none⟩, ⟨success, some d⟩]) := by
  refine (hs.runs_session hw _).imp ?_
  rintro r w' ⟨h, os, rfl, -, -⟩
  obtain ⟨calls, a, b, c, hcalls, hfst⟩ : ∃ calls a b c,
      hashedCalls s.collEng cmp f2 w (ops ++ [.insert k d, .get k, .remove k]) =
        calls ++ [(.insert k d, a), (.get k, b), (.remove k, c)] ∧ calls.map Prod.fst = ops := by
    obtain ⟨calls, last, hcalls, hfst, hlast⟩ := List.map_eq_append_iff.mp
      (hashedCalls_fst s.collEng cmp f2 w (ops ++ [.insert k d, .get k, .remove k]))
    obtain ⟨⟨_, a⟩, last, rfl, rfl, hget⟩ := List.map_eq_cons_iff.mp hlast
    obtain ⟨⟨_, b⟩, last, rfl, rfl, hremove⟩ := List.map_eq_cons_iff.mp hget
    obtain ⟨⟨_, c⟩, last, rfl, rfl, hnil⟩ := List.map_eq_cons_iff.mp hremove
    obtain rfl := List.map_eq_nil_iff.mp hnil
    exact ⟨calls, a, b, c, hcalls, hfst⟩
  -- Neither table nor map knows the key before the last three calls.
  have hspares : ∀ call ∈ calls, call.1.Spares cmp k := fun call hcall =>
    hops _ (hfst ▸ List.mem_map_of_mem hcall)
  have hempty : (FMap.empty : KeyMap cmp δ).Absent k := fun _ => nofun
  have hlacks : LacksKey ((.empty, []) : KeyMap cmp δ × List (Key × δ)) k :=
    ⟨hempty, fun _ => nofun⟩
  have hnew := hashedRun_new_key (d := d) (a := a) (b := b) (c := c) hs.equivalence
    (hashedRun_spares (e := .listMtfHash) hspares hlacks)
  have hans : (hashedRun s.collEng cmp
      (hashedCalls s.collEng cmp f2 w (ops ++ [.insert k d, .get k, .remove k]))).1 =
        (hashedRun .listMtfHash cmp calls).1 ++
          (Machine.runStep (hashedStep .listMtfHash) (hashedRun .listMtfHash cmp calls).2
            [(.insert k d, a), (.get k, b), (.remove k, c)]).1 := by
    rw [hcalls, he, hashedRun, Machine.runStep_append]
    rfl
  have hmap : (mapSession cmp (ops ++ [.insert k d, .get k, .remove k])).1 =
      (mapSession cmp ops).1 ++ [⟨success, none⟩, ⟨success, some d⟩, ⟨success, some d⟩] := by
    rw [← mapRun_new_key hs.equivalence (mapRun_spares hops hempty)]
    exact congrArg Prod.fst (Machine.runStep_append _ _ _)
  rw [hans, hashedRun, hnew, hmap]
  refine ⟨_, (hashedRun .listMtfHash cmp calls).1, h, rfl, fun heq => ?_, ?_⟩
  -- The removal or the lookup misses the key, and the map finds it both times.
  · have htail := (List.append_inj' heq (by cases a <;> rfl)).2
    cases a <;> cases htail
  · cases a
    · exact .inl rfl
    · exact .inr rfl

theorem mtf_hash_list_forgets_two :
    Total (session { twoHashes with collEng := .listMtfHash }
        [.insert ⟨[2, 0], by decide⟩ "two", .insert ⟨[1, 0], by decide⟩ "one",
          .get ⟨[1, 0], by decide⟩, .remove ⟨[1, 0], by decide⟩])
      (World.start fun _ _ => 0) fun r _ => ∀ h, r ≠ .ok ([⟨success, none⟩, ⟨success, none⟩,
        ⟨success, some "one"⟩, ⟨success, some "one"⟩], h) := by
  refine (mtf_hash_list_forgets (s := { twoHashes with collEng := .listMtfHash })
    { twoHashes_settings with engine := .inr rfl } rfl (World.start_allocsSucceed _)
    [.insert ⟨[2, 0], by decide⟩ "two"] ?_).imp ?_
  · intro op hop k' d' heq
    cases List.mem_singleton.mp hop
    cases heq
    decide
  · rintro r w' ⟨rs, -, h, rfl, hne, -⟩ h' heq
    exact hne (congrArg Prod.fst (Except.ok.inj heq))

end Hashish
