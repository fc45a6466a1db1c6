import Hashish.Contents
import Hashish.Lib.Calls
import Hashish.Lib.FiniteMap
import Hashish.Operations

/-!
# The abstract map

What a hash table is for: a finite map from keys to data, keys being compared with
`key_cmp`. `mapStep` is its answer to one call. Where allocations may fail, so may
the insertion of an absent key, which then leaves the map as it is.

`Outcome` says what a call does to the contents of a table, whatever the engine.

* `Outcome.refines`: when `key_cmp = 0` is an equivalence, contents that change by
  outcomes answer as the abstract map does.
-/

namespace Hashish

open Hashish.Lib

variable {δ : Type} {cmp : KeyCmp}

/-- The calls of a map. -/
inductive MapOp (δ : Type)
  | insert (k : Key) (d : δ)
  | get (k : Key)
  | remove (k : Key)

def MapOp.key : MapOp δ → Key
  | insert k _ => k
  | get k => k
  | remove k => k

/-- `hi_insert`, `hi_get` and `hi_remove`. An insertion returns no data. -/
def MapOp.call (op : MapOp δ) (h : HiHandle δ) : Prog (Result δ × HiHandle δ) :=
  match op with
  | insert k d => do
    let (status, h) ← hiInsert h k.bytes k.keylen d
    pure (⟨status, none⟩, h)
  | get k => hiGet h k.bytes k.keylen
  | remove k => hiRemove h k.bytes k.keylen

/-! ## The map -/

abbrev KeyMap (cmp : KeyCmp) (δ : Type) := FMap Key δ cmp.same

/-- The answer to a search that gives `d`. -/
def answerOf (d : Option δ) : Result δ :=
  match d with
  | none => ⟨hiErrNokey, none⟩
  | some d => ⟨success, some d⟩

/-- The answer of the map to a call, and the map after it. -/
def mapStep (m : KeyMap cmp δ) (op : MapOp δ) : Result δ × KeyMap cmp δ :=
  match op with
  | .insert k d =>
    if h : m.Absent k then (⟨success, none⟩, m.insertNew k d h) else (⟨hiErrDupkey, none⟩, m)
  | .get k => (answerOf (m.get k), m)
  | .remove k => (answerOf (m.get k), m.erase k)

/-- The answers of the map to a run of calls, and the map after it. -/
def mapRun (m : KeyMap cmp δ) (ops : List (MapOp δ)) : List (Result δ) × KeyMap cmp δ :=
  Machine.runStep mapStep m ops

/-- The answer to an insertion that failed for lack of memory. -/
def Result.Exhausted (r : Result δ) : Prop :=
  r.status ≠ success ∧ r.status ≠ hiErrDupkey ∧ r.data = none

/-- The map as a machine. Insertions may fail when `mayFail` holds. -/
def mapMachine (cmp : KeyCmp) (δ : Type) (mayFail : Prop) :
    Machine (MapOp δ) (Result δ) (KeyMap cmp δ) where
  allows m op r := r = (mapStep m op).1 ∨
    mayFail ∧ ∃ k d, op = .insert k d ∧ m.Absent k ∧ r.Exhausted
  next m op r := if r.status = success then (mapStep m op).2 else m

/-- An answer other than `SUCCESS` leaves the map as it is. -/
theorem mapStep_of_ne_success {m : KeyMap cmp δ} {op : MapOp δ}
    (h : (mapStep m op).1.status ≠ success) : (mapStep m op).2 = m := by
  cases op with
  | insert k d =>
    by_cases ha : m.Absent k
    · simp [mapStep, ha] at h
    · simp [mapStep, ha]
  | get k => rfl
  | remove k =>
    refine FMap.erase_of_absent fun p hp hk => h ?_
    have hs : (m.pairs.find? fun p => decide (cmp.same k p.1)).isSome :=
      List.find?_isSome.mpr ⟨p, hp, by simpa using hk⟩
    obtain ⟨q, hq⟩ := Option.isSome_iff_exists.mp hs
    simp [mapStep, answerOf, FMap.get, hq]

/-- Without insertions the empty map stays empty. -/
theorem mapStep_empty {op : MapOp δ} (hop : ∀ k d, op ≠ .insert k d) :
    (mapStep (.empty : KeyMap cmp δ) op).2 = .empty := by
  cases op with
  | insert k d => exact (hop k d rfl).elim
  | get k => rfl
  | remove k => rfl

/-- When no allocation fails, the map computes the answers of the run. -/
theorem mapRun_of_trace {m m' : KeyMap cmp δ} {ops : List (MapOp δ)} {rs : List (Result δ)}
    {mayFail : Prop} (hf : ¬ mayFail) (h : (mapMachine cmp δ mayFail).Trace m ops rs m') :
    mapRun m ops = (rs, m') := by
  refine Machine.trace_ofStep (h.imp fun m op r hr => ?_)
  have hr' : r = (mapStep m op).1 := hr.resolve_right fun hm => hf hm.1
  refine ⟨hr', ?_⟩
  subst hr'
  simp only [Machine.ofStep, mapMachine]
  split
  · rfl
  · rename_i hne
    exact mapStep_of_ne_success hne

theorem mapMachine_mono {mayFail mayFail' : Prop} (hmay : mayFail → mayFail') (m : KeyMap cmp δ)
    (op : MapOp δ) (r : Result δ) (h : (mapMachine cmp δ mayFail).allows m op r) :
    (mapMachine cmp δ mayFail').allows m op r ∧
      (mapMachine cmp δ mayFail').next m op r = (mapMachine cmp δ mayFail).next m op r :=
  ⟨h.imp_right fun h => ⟨hmay h.1, h.2⟩, rfl⟩

/-- When no allocation fails in a run of calls, the map computes their answers. -/
theorem mapRun_of_traces {S : Type} {call : MapOp δ → S → Prog (Result δ × S)}
    {m m' : KeyMap cmp δ} {t : S} {w : World} {ops : List (MapOp δ)} {rs : List (Result δ)}
    (hw : w.AllocsSucceed)
    (h : Prog.Traces call (fun w w' => mapMachine cmp δ (w.SomeFailed w')) m t w ops rs m') :
    mapRun m ops = (rs, m') := by
  have hnone := h.imp fun w₁ w₂ m op r (hw₁ : w ≤ w₁) hr =>
    mapMachine_mono (fun hf : w₁.SomeFailed w₂ => hf.not_allocsSucceed (hw.mono hw₁)) m op r hr
  exact mapRun_of_trace id hnone.trace

/-! ## Contents that answer as the map does -/

/-- The pairs of the contents are those of the map. -/
def Holds (m : KeyMap cmp δ) (E : List (Stored δ)) : Prop := m.pairs.Perm (E.map Stored.pair)

/-- What a call may answer and do to the contents `E`, with `E'` after it. -/
def Outcome (cmp : KeyCmp) (mayFail : Prop) (E : List (Stored δ)) (op : MapOp δ) (r : Result δ)
    (E' : List (Stored δ)) : Prop :=
  match op with
  | .insert k d =>
    (cmp.find E k ≠ none ∧ r = ⟨hiErrDupkey, none⟩ ∧
      (E'.map Stored.pair).Perm (E.map Stored.pair)) ∨
    (cmp.find E k = none ∧ r = ⟨success, none⟩ ∧
      (E'.map Stored.pair).Perm ((k, d) :: E.map Stored.pair)) ∨
    (mayFail ∧ cmp.find E k = none ∧ r.Exhausted ∧
      (E'.map Stored.pair).Perm (E.map Stored.pair))
  | .get k => r = resultOf (cmp.find E k) ∧ (E'.map Stored.pair).Perm (E.map Stored.pair)
  | .remove k =>
    r = resultOf (cmp.find E k) ∧
      match cmp.find E k with
      | none => (E'.map Stored.pair).Perm (E.map Stored.pair)
      | some x => (E.map Stored.pair).Perm (x.pair :: E'.map Stored.pair)

section Refinement

variable {m : KeyMap cmp δ} {E E' : List (Stored δ)} {k : Key}

theorem Holds.size (h : Holds m E) : m.size = E.length := by
  rw [FMap.size, h.length_eq, List.length_map]

theorem Holds.mem_iff (h : Holds m E) {p : Key × δ} : p ∈ m.pairs ↔ ∃ x ∈ E, x.pair = p := by
  rw [List.Perm.mem_iff h, List.mem_map]

/-- The contents of a map have no key twice. -/
theorem Holds.pairwise (h : Holds m E) (hr : Equivalence cmp.same) :
    E.Pairwise fun x y => ¬ cmp.same x.key y.key :=
  List.pairwise_map.mp (List.Perm.pairwise h m.distinct fun hn hs => hn (hr.symm hs))

theorem Holds.absent_iff (h : Holds m E) : m.Absent k ↔ cmp.find E k = none := by
  rw [KeyCmp.find_eq_none]
  constructor
  · exact fun ha x hx => ha x.pair (h.mem_iff.mpr ⟨x, hx, rfl⟩)
  · intro hn p hp
    obtain ⟨x, hx, rfl⟩ := h.mem_iff.mp hp
    exact hn x hx

theorem Holds.answerOf_get (h : Holds m E) (hr : Equivalence cmp.same) :
    answerOf (m.get k) = resultOf (cmp.find E k) := by
  cases hx : cmp.find E k with
  | none => rw [FMap.get_of_absent (h.absent_iff.mpr hx)]; rfl
  | some x =>
    have hp : x.pair ∈ m.pairs := h.mem_iff.mpr ⟨x, KeyCmp.mem_of_find hx, rfl⟩
    rw [FMap.get_of_mem hr hp (KeyCmp.same_of_find hx)]
    rfl

/-- The keys of a map, and one more. -/
def mapKeys (m : KeyMap cmp δ) (k : Key) : Key → Prop :=
  fun q => q = k ∨ ∃ p ∈ m.pairs, p.1 = q

theorem keysWith_of_holds (hm : Holds m E) {q : Key} (hq : keysWith E k q) : mapKeys m k q := by
  rcases hq with rfl | ⟨x, hx, rfl⟩
  · exact .inl rfl
  · exact .inr ⟨x.pair, hm.mem_iff.mpr ⟨x, hx, rfl⟩, rfl⟩

/-- The contents answer as the map does, and go on holding its pairs. -/
theorem Outcome.refines {mayFail : Prop} {op : MapOp δ} {r : Result δ}
    (hr : Equivalence cmp.same) (hm : Holds m E) (h : Outcome cmp mayFail E op r E') :
    (mapMachine cmp δ mayFail).allows m op r ∧ Holds ((mapMachine cmp δ mayFail).next m op r) E' := by
  cases op with
  | insert k d =>
    rcases h with ⟨hf, rfl, hE⟩ | ⟨hf, rfl, hE⟩ | ⟨hmay, hf, hx, hE⟩
    · have ha : ¬ m.Absent k := fun ha => hf (hm.absent_iff.mp ha)
      exact ⟨.inl (by simp [mapStep, ha]), hm.trans hE.symm⟩
    · have ha : m.Absent k := hm.absent_iff.mpr hf
      refine ⟨.inl (by simp [mapStep, ha]), ?_⟩
      simp only [mapMachine, if_true, mapStep, dif_pos ha]
      exact (hm.cons (k, d)).trans hE.symm
    · refine ⟨.inr ⟨hmay, k, d, rfl, hm.absent_iff.mpr hf, hx⟩, ?_⟩
      simp only [mapMachine, if_neg hx.1]
      exact hm.trans hE.symm
  | get k =>
    obtain ⟨rfl, hE⟩ := h
    refine ⟨.inl (hm.answerOf_get hr).symm, ?_⟩
    simp only [mapMachine, mapStep, ite_self]
    exact hm.trans hE.symm
  | remove k =>
    obtain ⟨rfl, hE⟩ := h
    refine ⟨.inl (hm.answerOf_get hr).symm, ?_⟩
    cases hx : cmp.find E k with
    | none =>
      rw [hx] at hE
      exact hm.trans hE.symm
    | some x =>
      rw [hx] at hE
      have hp : x.pair ∈ m.pairs := hm.mem_iff.mpr ⟨x, KeyCmp.mem_of_find hx, rfl⟩
      have herase := FMap.perm_erase hr hp (KeyCmp.same_of_find hx)
      exact (herase.symm.trans (hm.trans hE)).cons_inv

end Refinement

end Hashish
