import Hashish.EngineRuns
import Hashish.HashFunctions
import Mathlib.Data.List.Induction

/-!
# Settings (`hi_set.c`)

A caller fills a `struct hi_init_set` with the functions of `hi_set.c` before `hi_create` reads it.
Each function checks its own argument; whether the settings fit together is only checked by
`lhi_set_sanity_check`.

* `setRun_eq`: after any calls, each field holds what the last call that chose it has chosen.
* `configured_iff`: with what choices `hi_create` goes on, and which settings the handle gets.
-/

namespace Hashish

open Hashish.Lib

/-- The value of an `enum coll_eng`. -/
def CollEng.no : CollEng → Nat
  | .unset => 0
  | .list => 1
  | .listHash => 2
  | .listMtf => 3
  | .listMtfHash => 4
  | .array => 5
  | .arrayHash => 6
  | .arrayDyn => 7
  | .arrayDynHash => 8
  | .rbtree => 9
  | .max => 10

/-- `COLL_ENG_MAX`. -/
def collEngMax : Nat := CollEng.max.no - 1

/-! ## The functions -/

/-- `hi_set_bucket_size`. -/
def hiSetBucketSize (s : HiInitSet) (size : UInt32) : Int × HiInitSet :=
  if size = 0 then (hiErrRange, s) else (success, { s with tableSize := size })

/-- `hi_set_coll_eng_array_size`. -/
def hiSetCollEngArraySize (s : HiInitSet) (size : UInt32) : Int × HiInitSet :=
  if size = 0 then (hiErrRange, s) else (success, { s with collEngArraySize := size })

/-- `hi_set_hash_alg`. -/
def hiSetHashAlg (c : HashMachine) (s : HiInitSet) (alg : HashAlg) : Int × HiInitSet :=
  match hashAlgLoop alg (lhiHashfuncMap c) 0 with
  | some f => (success, { s with hashFunc := some f })
  | none => (hiErrNofunc, s)

/-- `hi_set_hash_func`. -/
def hiSetHashFunc (s : HiInitSet) (f : Option HashFunc) : Int × HiInitSet :=
  match f with
  | none => (hiErrNodata, s)
  | some f => (success, { s with hashFunc := some f })

/-- `hi_set_hash2_alg`. -/
def hiSetHash2Alg (c : HashMachine) (s : HiInitSet) (alg : HashAlg) : Int × HiInitSet :=
  match hashAlgLoop alg (lhiHashfuncMap c) 0 with
  | some f => (success, { s with hash2Func := some f })
  | none => (hiErrNofunc, s)

/-- `hi_set_hash2_func`. -/
def hiSetHash2Func (s : HiInitSet) (f : Option HashFunc) : Int × HiInitSet :=
  match f with
  | none => (hiErrNodata, s)
  | some f => (success, { s with hash2Func := some f })

/-- `hi_set_coll_eng`. It lets the value 0 through, which is no engine. -/
def hiSetCollEng (s : HiInitSet) (e : CollEng) : Int × HiInitSet :=
  if collEngMax < e.no then (hiErrNofunc, s) else (success, { s with collEng := e })

/-- `hi_set_rehash_auto`. -/
def hiSetRehashAuto (s : HiInitSet) (choice : Int) : HiInitSet := { s with rehashAuto := choice }

/-- `hi_set_key_cmp_func`. -/
def hiSetKeyCmpFunc (s : HiInitSet) (cmp : Option KeyCmp) : Int × HiInitSet :=
  match cmp with
  | none => (hiErrNodata, s)
  | some cmp => (success, { s with keyCmp := some cmp })

/-! ## Calls -/

/-- The calls on settings. -/
inductive SetCall
  | bucketSize (size : UInt32)
  | collEngArraySize (size : UInt32)
  | hashAlg (alg : HashAlg)
  | hashFunc (f : Option HashFunc)
  | hash2Alg (alg : HashAlg)
  | hash2Func (f : Option HashFunc)
  | collEng (e : CollEng)
  | rehashAuto (choice : Int)
  | keyCmpFunc (cmp : Option KeyCmp)

variable (c : HashMachine)

/-- The status of a call, and the settings after it. -/
def SetCall.call (op : SetCall) (s : HiInitSet) : Int × HiInitSet :=
  match op with
  | bucketSize size => hiSetBucketSize s size
  | collEngArraySize size => hiSetCollEngArraySize s size
  | hashAlg alg => hiSetHashAlg c s alg
  | hashFunc f => hiSetHashFunc s f
  | hash2Alg alg => hiSetHash2Alg c s alg
  | hash2Func f => hiSetHash2Func s f
  | collEng e => hiSetCollEng s e
  | rehashAuto choice => (success, hiSetRehashAuto s choice)
  | keyCmpFunc cmp => hiSetKeyCmpFunc s cmp

/-- The settings after some calls. -/
def setRun (s : HiInitSet) (ops : List SetCall) : HiInitSet :=
  ops.foldl (fun s op => (op.call c s).2) s

/-! ## Choices -/

/-- What a call chooses for a field: nothing when it is about another field, or when it fails. -/
def SetCall.tableSize? : SetCall → Option UInt32
  | bucketSize size => if size = 0 then none else some size
  | _ => none

def SetCall.arraySize? : SetCall → Option UInt32
  | collEngArraySize size => if size = 0 then none else some size
  | _ => none

def SetCall.hashFunc? : SetCall → Option HashFunc
  | hashAlg alg => hashAlgLoop alg (lhiHashfuncMap c) 0
  | hashFunc f => f
  | _ => none

def SetCall.hash2Func? : SetCall → Option HashFunc
  | hash2Alg alg => hashAlgLoop alg (lhiHashfuncMap c) 0
  | hash2Func f => f
  | _ => none

def SetCall.collEng? : SetCall → Option CollEng
  | collEng e => if e = .max then none else some e
  | _ => none

def SetCall.rehashAuto? : SetCall → Option Int
  | rehashAuto choice => some choice
  | _ => none

def SetCall.keyCmp? : SetCall → Option KeyCmp
  | keyCmpFunc cmp => cmp
  | _ => none

/-- The last choice that the calls make for a field. -/
def lastChoice {α : Type} (f : SetCall → Option α) (ops : List SetCall) : Option α :=
  ops.reverse.findSome? f

/-- The settings of a handle are those that the calls chose, and they fit together. -/
structure Configured (ops : List SetCall) (u : UserSettings) : Prop where
  tableSize : lastChoice SetCall.tableSize? ops = some u.tableSize
  keyCmp : lastChoice SetCall.keyCmp? ops = some u.keyCmp
  hashFunc : lastChoice (SetCall.hashFunc? c) ops = some u.hashFunc
  collEng : lastChoice SetCall.collEng? ops = some u.collEng
  hash2Func : lastChoice (SetCall.hash2Func? c) ops = u.hash2Func
  arraySize : (lastChoice SetCall.arraySize? ops).getD 0 = u.collEngArraySize
  rehashAuto : (lastChoice SetCall.rehashAuto? ops).getD 0 = u.rehashAuto
  rehashThreshold : u.rehashThreshold = .fin (3 / 4)
  engine : u.collEng ≠ .unset
  secondHash : u.collEng = .listHash ∨ u.collEng = .listMtfHash ∨ u.collEng = .arrayDynHash →
    ∃ f, u.hash2Func = some f ∧ f.addr ≠ u.hashFunc.addr
  array : u.collEng = .array → u.collEngArraySize ≠ 0

/-! ## What the settings are after some calls -/

section Runs

variable {c} {s : HiInitSet} {op : SetCall} {ops : List SetCall}

theorem lastChoice_concat {α : Type} {f : SetCall → Option α} :
    lastChoice f (ops ++ [op]) = (f op).or (lastChoice f ops) := by
  rw [lastChoice, List.reverse_append, List.reverse_singleton, List.singleton_append,
    List.findSome?_cons, lastChoice]
  cases f op <;> rfl

/-- What one call does. A call that fails changes nothing. -/
theorem SetCall.call_eq : (op.call c s).2 =
    { s with
      tableSize := op.tableSize?.getD s.tableSize
      rehashAuto := op.rehashAuto?.getD s.rehashAuto
      collEngArraySize := op.arraySize?.getD s.collEngArraySize
      collEng := op.collEng?.getD s.collEng
      hashFunc := (op.hashFunc? c).or s.hashFunc
      hash2Func := (op.hash2Func? c).or s.hash2Func
      keyCmp := op.keyCmp?.or s.keyCmp } := by
  cases op with
  | bucketSize size =>
    by_cases h : size = 0 <;>
      simp [call, hiSetBucketSize, tableSize?, arraySize?, hashFunc?, hash2Func?, collEng?,
        rehashAuto?, keyCmp?, h]
  | collEngArraySize size =>
    by_cases h : size = 0 <;>
      simp [call, hiSetCollEngArraySize, tableSize?, arraySize?, hashFunc?, hash2Func?, collEng?,
        rehashAuto?, keyCmp?, h]
  | hashAlg alg =>
    cases h : hashAlgLoop alg (lhiHashfuncMap c) 0 <;>
      simp [call, hiSetHashAlg, tableSize?, arraySize?, hashFunc?, hash2Func?, collEng?,
        rehashAuto?, keyCmp?, h]
  | hashFunc f =>
    cases f <;>
      simp [call, hiSetHashFunc, tableSize?, arraySize?, hashFunc?, hash2Func?, collEng?,
        rehashAuto?, keyCmp?]
  | hash2Alg alg =>
    cases h : hashAlgLoop alg (lhiHashfuncMap c) 0 <;>
      simp [call, hiSetHash2Alg, tableSize?, arraySize?, hashFunc?, hash2Func?, collEng?,
        rehashAuto?, keyCmp?, h]
  | hash2Func f =>
    cases f <;>
      simp [call, hiSetHash2Func, tableSize?, arraySize?, hashFunc?, hash2Func?, collEng?,
        rehashAuto?, keyCmp?]
  | collEng e =>
    have hmax : collEngMax < e.no ↔ e = .max := by cases e <;> decide
    by_cases h : e = .max
    · rw [h]
      rfl
    · simp [call, hiSetCollEng, tableSize?, arraySize?, hashFunc?, hash2Func?, collEng?,
        rehashAuto?, keyCmp?, hmax, h]
  | rehashAuto choice =>
    simp [call, hiSetRehashAuto, tableSize?, arraySize?, hashFunc?, hash2Func?, collEng?,
      rehashAuto?, keyCmp?]
  | keyCmpFunc cmp =>
    cases cmp <;>
      simp [call, hiSetKeyCmpFunc, tableSize?, arraySize?, hashFunc?, hash2Func?, collEng?,
        rehashAuto?, keyCmp?]

/-- After any calls, a field that no call chose is as `hi_set_zero` left it. -/
theorem setRun_eq : setRun c hiSetZero ops =
    { tableSize := (lastChoice SetCall.tableSize? ops).getD 0
      rehashAuto := (lastChoice SetCall.rehashAuto? ops).getD 0
      rehashThreshold := .fin (3 / 4)
      collEngArraySize := (lastChoice SetCall.arraySize? ops).getD 0
      collEng := (lastChoice SetCall.collEng? ops).getD .unset
      hashFunc := lastChoice (SetCall.hashFunc? c) ops
      hash2Func := lastChoice (SetCall.hash2Func? c) ops
      keyCmp := lastChoice SetCall.keyCmp? ops } := by
  induction ops using List.reverseRecOn with
  | nil => rfl
  | append_singleton ops op ih =>
    have hrun : setRun c hiSetZero (ops ++ [op]) = (op.call c (setRun c hiSetZero ops)).2 :=
      List.foldl_concat _ _ _ _
    rw [hrun, SetCall.call_eq, ih]
    simp only [lastChoice_concat, Option.getD_or]

/-- The values that the calls choose are not zero, and no call chooses `__COLL_ENG_MAX`. -/
theorem ne_of_lastChoice {α : Type} {f : SetCall → Option α} {a b : α}
    (hf : ∀ op, f op ≠ some b) (h : lastChoice f ops = some a) : a ≠ b := by
  rintro rfl
  obtain ⟨op, -, hop⟩ := List.exists_of_findSome?_eq_some h
  exact hf op hop

/-- What the check asks of the engine. -/
def EngineReady (s : HiInitSet) : Prop :=
  s.collEng ≠ .unset ∧ s.collEng ≠ .max ∧
  (s.collEng = .listHash ∨ s.collEng = .listMtfHash ∨ s.collEng = .arrayDynHash →
    ∃ f, s.hash2Func = some f ∧ s.hashFunc.map HashFunc.addr ≠ some f.addr) ∧
  (s.collEng = .array → s.collEngArraySize ≠ 0)

theorem lhiSetSanityHash2_eq_success :
    lhiSetSanityHash2 s = success ↔
      ∃ f, s.hash2Func = some f ∧ s.hashFunc.map HashFunc.addr ≠ some f.addr := by
  have herr : hiErrNodata ≠ success := by decide
  unfold lhiSetSanityHash2
  split
  next h => simp [h, herr]
  next f h =>
    split
    next haddr => simp [h, haddr, herr]
    next haddr => exact ⟨fun _ => ⟨f, h, haddr⟩, fun _ => rfl⟩

/-- The check, once the table size and the two functions are there. -/
theorem lhiSetSanityCheck_of_some {cmp : KeyCmp} {f : HashFunc} (hsize : s.tableSize ≠ 0)
    (hcmp : s.keyCmp = some cmp) (hhash : s.hashFunc = some f) {u : UserSettings} :
    lhiSetSanityCheck s = .ok u ↔ EngineReady s ∧ u = ⟨s.tableSize, s.collEng, s.rehashAuto,
      s.rehashThreshold, s.collEngArraySize, f, s.hash2Func, cmp⟩ := by
  have herr : hiErrNodata ≠ success := by decide
  have hint : hiErrInternal ≠ success := by decide
  have hash2 : lhiSetSanityHash2 s = success ↔ _ := lhiSetSanityHash2_eq_success
  unfold lhiSetSanityCheck EngineReady
  rw [if_neg hsize, hcmp, hhash]
  rw [hhash] at hash2
  dsimp only
  cases he : s.collEng with
  | unset => simp [hint]
  | max => simp [hint]
  | list => simp [eq_comm]
  | listMtf => simp [eq_comm]
  | arrayHash => simp [eq_comm]
  | arrayDyn => simp [eq_comm]
  | rbtree => simp [eq_comm]
  | array => by_cases h : s.collEngArraySize = 0 <;> simp [lhiSetSanityArray, h, herr, eq_comm]
  | listHash =>
    rw [← hash2]
    by_cases h : lhiSetSanityHash2 s = success <;> simp [h, eq_comm]
  | listMtfHash =>
    rw [← hash2]
    by_cases h : lhiSetSanityHash2 s = success <;> simp [h, eq_comm]
  | arrayDynHash =>
    rw [← hash2]
    by_cases h : lhiSetSanityHash2 s = success <;> simp [h, eq_comm]

theorem configured_iff {u : UserSettings} :
    lhiSetSanityCheck (setRun c hiSetZero ops) = .ok u ↔ Configured c ops u := by
  have hsize : lastChoice SetCall.tableSize? ops ≠ some 0 := fun h =>
    ne_of_lastChoice (fun op => by cases op <;> simp [SetCall.tableSize?]) h rfl
  have hmax : lastChoice SetCall.collEng? ops ≠ some .max := fun h =>
    ne_of_lastChoice (fun op => by cases op <;> simp [SetCall.collEng?]) h rfl
  rw [setRun_eq]
  constructor
  · intro h
    obtain ⟨hu, hts, -, -, -, hhash, -, hcmp⟩ := lhiSetSanityCheck_ok h
    rw [hts] at hu
    clear hts
    generalize u.hashFunc = f at hhash
    generalize u.keyCmp = cmp at hcmp
    obtain ⟨⟨hunset, -, hsecond, harray⟩, rfl⟩ := (lhiSetSanityCheck_of_some hu hcmp hhash).mp h
    obtain ⟨size, hsize⟩ : ∃ size, lastChoice SetCall.tableSize? ops = some size :=
      Option.ne_none_iff_exists'.mp fun hnone => hu (congrArg (Option.getD · 0) hnone)
    obtain ⟨e, he⟩ : ∃ e, lastChoice SetCall.collEng? ops = some e :=
      Option.ne_none_iff_exists'.mp fun hnone => hunset (congrArg (Option.getD · .unset) hnone)
    refine ⟨by rw [hsize]; rfl, hcmp, hhash, by rw [he]; rfl, rfl, rfl, rfl, rfl, hunset, ?_, harray⟩
    intro hf
    obtain ⟨f, hf, haddr⟩ := hsecond hf
    rw [hhash] at haddr
    exact ⟨f, hf, fun heq => haddr (congrArg some heq.symm)⟩
  · intro h
    have hu : u.tableSize ≠ 0 := fun hzero => hsize (hzero ▸ h.tableSize)
    have he : u.collEng ≠ .max := fun heq => hmax (heq ▸ h.collEng)
    have hready : (∃ f, u.hash2Func = some f ∧ f.addr ≠ u.hashFunc.addr) →
        ∃ f, u.hash2Func = some f ∧ (some u.hashFunc).map HashFunc.addr ≠ some f.addr := by
      rintro ⟨f, hf, haddr⟩
      exact ⟨f, hf, fun heq => haddr (Option.some.inj heq).symm⟩
    rw [h.tableSize, h.collEng, h.keyCmp, h.hashFunc, h.hash2Func, h.arraySize, h.rehashAuto,
      ← h.rehashThreshold]
    exact (lhiSetSanityCheck_of_some hu rfl rfl).mpr
      ⟨⟨h.engine, he, fun hf => hready (h.secondHash hf), h.array⟩, rfl⟩

end Runs

end Hashish
