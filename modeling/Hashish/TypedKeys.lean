import Hashish.IntegerKeys
import Hashish.ListMap
import Hashish.Settings

/-!
# Tables with strings and integers as keys (`hi_key_*.c`)

For each of five types of keys there is a function that creates a table with the default hash
function, the list engine and the compare function of the type, and three functions that pass the
bytes of a key on. The compare functions are wrong on other keys: `hi_cmp_str` reads up to a zero
byte, and the 32-bit functions are no order.

* `typed_tables_are_maps`: whatever calls are made, such a table is a partial function from the values
  of the type.
-/

namespace Hashish

open Hashish.Lib

variable {δ : Type}

/-! ## Keys -/

/-- `strcmp`. A byte string without a zero byte is read as if one followed. -/
def hiCmpStr : KeyCmp
  | [], [] => 0
  | a :: _, [] => a.toNat
  | [], b :: _ => -b.toNat
  | a :: key1, b :: key2 =>
    if a ≠ b then a.toNat - b.toNat
    else if a = 0 then 0
    else hiCmpStr key1 key2

/-- A string of C: the bytes before the terminating zero. Its length and one more fit in
`uint32_t`. -/
structure CString where
  bytes : Bytes
  nonzero : ∀ b ∈ bytes, b ≠ 0
  fits : bytes.length + 1 < 2 ^ 32
deriving DecidableEq

/-- The bytes of an integer of `n` bytes, as they lie in memory. -/
def intBytes (n x : Nat) : Bytes := (List.range n).map fun i => UInt8.ofNat (x / 256 ^ i)

/-! ## The functions -/

/-- What `hi_init_str` and its siblings do with their compare function. They do not look at the status
of the functions of `hi_set.c`. -/
def hiInitCmp (c : HashMachine) (cmp : KeyCmp) (tableSize : UInt32) :
    Prog (Except Int (HiHandle δ)) :=
  let s := hiSetZero
  let s := (hiSetBucketSize s tableSize).2
  let s := (hiSetHashAlg c s hiHashDefault).2
  let s := (hiSetCollEng s .list).2
  let s := (hiSetKeyCmpFunc s (some cmp)).2
  hiCreate s

def hiInitStr (c : HashMachine) (tableSize : UInt32) : Prog (Except Int (HiHandle δ)) :=
  hiInitCmp c hiCmpStr tableSize

def hiInsertStr (h : HiHandle δ) (key : CString) (data : δ) : Prog (Int × HiHandle δ) :=
  hiInsert h (key.bytes ++ [0]) (UInt32.ofNat (key.bytes.length + 1)) data

def hiGetStr (h : HiHandle δ) (key : CString) : Prog (Result δ × HiHandle δ) :=
  hiGet h (key.bytes ++ [0]) (UInt32.ofNat (key.bytes.length + 1))

def hiRemoveStr (h : HiHandle δ) (key : CString) : Prog (Result δ × HiHandle δ) :=
  hiRemove h (key.bytes ++ [0]) (UInt32.ofNat (key.bytes.length + 1))

def hiInitInt16T (c : HashMachine) (tableSize : UInt32) : Prog (Except Int (HiHandle δ)) :=
  hiInitCmp c hiCmpInt16T tableSize

def hiInsertInt16T (h : HiHandle δ) (key : Int16) (data : δ) : Prog (Int × HiHandle δ) :=
  hiInsert h (intBytes 2 key.toUInt16.toNat) 2 data

def hiGetInt16T (h : HiHandle δ) (key : Int16) : Prog (Result δ × HiHandle δ) :=
  hiGet h (intBytes 2 key.toUInt16.toNat) 2

def hiRemoveInt16T (h : HiHandle δ) (key : Int16) : Prog (Result δ × HiHandle δ) :=
  hiRemove h (intBytes 2 key.toUInt16.toNat) 2

def hiInitUint16T (c : HashMachine) (tableSize : UInt32) : Prog (Except Int (HiHandle δ)) :=
  hiInitCmp c hiCmpUint16T tableSize

def hiInsertUint16T (h : HiHandle δ) (key : UInt16) (data : δ) : Prog (Int × HiHandle δ) :=
  hiInsert h (intBytes 2 key.toNat) 2 data

def hiGetUint16T (h : HiHandle δ) (key : UInt16) : Prog (Result δ × HiHandle δ) :=
  hiGet h (intBytes 2 key.toNat) 2

def hiRemoveUint16T (h : HiHandle δ) (key : UInt16) : Prog (Result δ × HiHandle δ) :=
  hiRemove h (intBytes 2 key.toNat) 2

def hiInitInt32T (c : HashMachine) (tableSize : UInt32) : Prog (Except Int (HiHandle δ)) :=
  hiInitCmp c hiCmpInt32T tableSize

def hiInsertInt32T (h : HiHandle δ) (key : Int32) (data : δ) : Prog (Int × HiHandle δ) :=
  hiInsert h (intBytes 4 key.toUInt32.toNat) 4 data

def hiGetInt32T (h : HiHandle δ) (key : Int32) : Prog (Result δ × HiHandle δ) :=
  hiGet h (intBytes 4 key.toUInt32.toNat) 4

def hiRemoveInt32T (h : HiHandle δ) (key : Int32) : Prog (Result δ × HiHandle δ) :=
  hiRemove h (intBytes 4 key.toUInt32.toNat) 4

def hiInitUint32T (c : HashMachine) (tableSize : UInt32) : Prog (Except Int (HiHandle δ)) :=
  hiInitCmp c hiCmpUint32T tableSize

def hiInsertUint32T (h : HiHandle δ) (key : UInt32) (data : δ) : Prog (Int × HiHandle δ) :=
  hiInsert h (intBytes 4 key.toNat) 4 data

def hiGetUint32T (h : HiHandle δ) (key : UInt32) : Prog (Result δ × HiHandle δ) :=
  hiGet h (intBytes 4 key.toNat) 4

def hiRemoveUint32T (h : HiHandle δ) (key : UInt32) : Prog (Result δ × HiHandle δ) :=
  hiRemove h (intBytes 4 key.toNat) 4

/-! ## The abstract table -/

/-- The four functions for keys of the type `V`. -/
structure TypedApi (V δ : Type) where
  init : UInt32 → Prog (Except Int (HiHandle δ))
  insert : HiHandle δ → V → δ → Prog (Int × HiHandle δ)
  get : HiHandle δ → V → Prog (Result δ × HiHandle δ)
  remove : HiHandle δ → V → Prog (Result δ × HiHandle δ)

/-- A call with a key of the type `V`. -/
inductive TypedOp (V δ : Type)
  | insert (v : V) (d : δ)
  | get (v : V)
  | remove (v : V)

variable {V : Type}

def TypedApi.call (A : TypedApi V δ) (op : TypedOp V δ) (h : HiHandle δ) :
    Prog (Result δ × HiHandle δ) :=
  match op with
  | .insert v d => do
    let (status, h) ← A.insert h v d
    pure (⟨status, none⟩, h)
  | .get v => A.get h v
  | .remove v => A.remove h v

/-- Create a table and make the calls, unless the creation fails. -/
def TypedApi.session (A : TypedApi V δ) (tableSize : UInt32) (ops : List (TypedOp V δ)) :
    Prog (Except Int (List (Result δ) × HiHandle δ)) := do
  match ← A.init tableSize with
  | .error e => pure (.error e)
  | .ok h => do
    let r ← Prog.calls A.call ops h
    pure (.ok r)

/-- A call on a partial function. -/
def valueStep [DecidableEq V] (f : V → Option δ) (op : TypedOp V δ) : Result δ × (V → Option δ) :=
  match op with
  | .insert v d =>
    if (f v).isNone then (⟨success, none⟩, Function.update f v (some d)) else (⟨hiErrDupkey, none⟩, f)
  | .get v => (answerOf (f v), f)
  | .remove v => (answerOf (f v), Function.update f v none)

/-- The calls on a partial function. When allocations may fail, so may the insertion of a new key,
which then has no effect. -/
def valueMachine (V δ : Type) [DecidableEq V] (mayFail : Prop) :
    Machine (TypedOp V δ) (Result δ) (V → Option δ) where
  allows f op r := r = (valueStep f op).1 ∨
    mayFail ∧ ∃ v d, op = .insert v d ∧ f v = none ∧ r.Exhausted
  next f op r := if r.status = success then (valueStep f op).2 else f

/-- Every session is one of a partial function that is nowhere defined at first, in which an
insertion may fail when one of its own requests does. A table of size zero is not created: the status
of `hi_set_bucket_size` is lost, but `hi_create` looks again. -/
def TypedApi.IsMap [DecidableEq V] (A : TypedApi V δ) : Prop :=
  ∀ (tableSize : UInt32) (ops : List (TypedOp V δ)) (w : World),
    Total (A.session tableSize ops) w fun r _ =>
      (r = .error hiErrSystem ∧ ¬ w.AllocsSucceed) ∨
      (r = .error hiErrNodata ∧ tableSize = 0) ∨
      ∃ h₁ w₁ rs h f, (A.init tableSize).run w = .ok (.ok h₁, w₁) ∧ r = .ok (rs, h) ∧
        tableSize ≠ 0 ∧ Prog.Traces A.call (fun w w' => valueMachine V δ (w.SomeFailed w'))
          (fun _ => none) h₁ w₁ ops rs f

/-! ## Encodings -/

/-- How values lie in memory as keys, and a compare function that tells these keys apart. -/
structure KeyCodec (V : Type) where
  encode : V → Key
  cmp : KeyCmp
  equivalence : Equivalence cmp.same
  same_iff : ∀ {a b}, cmp.same (encode a) (encode b) ↔ a = b

/-- The functions pass the encoding of a value on. -/
structure TypedApi.Uses (A : TypedApi V δ) (c : HashMachine) (K : KeyCodec V) : Prop where
  init : ∀ n, A.init n = hiInitCmp c K.cmp n
  insert : ∀ h v d, A.insert h v d = hiInsert h (K.encode v).bytes (K.encode v).keylen d
  get : ∀ h v, A.get h v = hiGet h (K.encode v).bytes (K.encode v).keylen
  remove : ∀ h v, A.remove h v = hiRemove h (K.encode v).bytes (K.encode v).keylen

/-- A call with an encoded key. -/
def TypedOp.lower (K : KeyCodec V) : TypedOp V δ → MapOp δ
  | insert v d => .insert (K.encode v) d
  | get v => .get (K.encode v)
  | remove v => .remove (K.encode v)

theorem TypedApi.Uses.call_eq {A : TypedApi V δ} {c : HashMachine} {K : KeyCodec V}
    (hA : A.Uses c K) (op : TypedOp V δ) : A.call op = (op.lower K).call := by
  funext h
  cases op with
  | insert v d => rw [TypedApi.call, TypedOp.lower, MapOp.call, hA.insert]
  | get v => rw [TypedApi.call, TypedOp.lower, MapOp.call, hA.get]
  | remove v => rw [TypedApi.call, TypedOp.lower, MapOp.call, hA.remove]

section Refinement

variable [DecidableEq V] {K : KeyCodec V} {m : KeyMap K.cmp δ} {f : V → Option δ} {v : V} {d : δ}
  {op : TypedOp V δ} {r : Result δ} {mayFail : Prop}

/-- The map holds the values of a partial function under their encodings, and nothing else. -/
structure KeyCodec.Shows (K : KeyCodec V) (m : KeyMap K.cmp δ) (f : V → Option δ) : Prop where
  get : ∀ v, m.get (K.encode v) = f v
  keys : ∀ p ∈ m.pairs, ∃ v, p.1 = K.encode v

omit [DecidableEq V] in
theorem KeyCodec.Shows.absent_iff (h : K.Shows m f) : m.Absent (K.encode v) ↔ f v = none := by
  rw [← FMap.get_eq_none_iff K.equivalence, h.get]

theorem KeyCodec.Shows.insertNew (h : K.Shows m f) (ha : m.Absent (K.encode v)) :
    K.Shows (m.insertNew (K.encode v) d ha) (Function.update f v (some d)) where
  get v' := by
    rw [FMap.get_insertNew, Function.update_apply, h.get]
    simp only [K.same_iff]
  keys p hp := by
    rcases List.mem_cons.mp hp with rfl | hp
    · exact ⟨v, rfl⟩
    · exact h.keys p hp

theorem KeyCodec.Shows.erase (h : K.Shows m f) :
    K.Shows (m.erase (K.encode v)) (Function.update f v none) where
  get v' := by
    rw [FMap.get_erase K.equivalence, Function.update_apply, h.get]
    simp only [K.same_iff]
  keys p hp := h.keys p (List.mem_of_mem_eraseP hp)

/-- One call on the map is one on the partial function. -/
theorem KeyCodec.Shows.step (h : K.Shows m f) (op : TypedOp V δ) :
    (mapStep m (op.lower K)).1 = (valueStep f op).1 ∧
      K.Shows (mapStep m (op.lower K)).2 (valueStep f op).2 := by
  cases op with
  | insert v d =>
    rw [TypedOp.lower, mapStep, valueStep]
    by_cases ha : m.Absent (K.encode v)
    · rw [dif_pos ha, if_pos (by rw [h.absent_iff.mp ha]; rfl)]
      exact ⟨rfl, h.insertNew ha⟩
    · rw [dif_neg ha, if_neg fun hnone => ha (h.absent_iff.mpr (Option.isNone_iff_eq_none.mp hnone))]
      exact ⟨rfl, h⟩
  | get v =>
    rw [TypedOp.lower, mapStep, valueStep, h.get]
    exact ⟨rfl, h⟩
  | remove v =>
    rw [TypedOp.lower, mapStep, valueStep, h.get]
    exact ⟨rfl, h.erase⟩

theorem KeyCodec.Shows.refines (h : K.Shows m f)
    (hr : (mapMachine K.cmp δ mayFail).allows m (op.lower K) r) :
    (valueMachine V δ mayFail).allows f op r ∧
      K.Shows ((mapMachine K.cmp δ mayFail).next m (op.lower K) r)
        ((valueMachine V δ mayFail).next f op r) := by
  obtain ⟨hanswer, hshows⟩ := h.step op
  constructor
  · rcases hr with rfl | ⟨hmay, k, d, hop, hab, hex⟩
    · exact .inl hanswer
    · cases op with
      | insert v d =>
        cases hop
        exact .inr ⟨hmay, _, _, rfl, h.absent_iff.mp hab, hex⟩
      | get v => cases hop
      | remove v => cases hop
  · rw [mapMachine, valueMachine]
    dsimp only
    split
    · exact hshows
    · exact h

end Refinement

/-! ## Sessions -/

/-- The settings of a table that `hiInitCmp` creates. -/
def typedSettings (cmp : KeyCmp) (n : UInt32) : HiInitSet :=
  { hiSetZero with
    tableSize := n
    collEng := .list
    hashFunc := some (HashCode.func lhiHashHsieh 4)
    keyCmp := some cmp }

theorem hiInitCmp_eq (c : HashMachine) (cmp : KeyCmp) (n : UInt32) :
    (hiInitCmp c cmp n : Prog (Except Int (HiHandle δ))) = hiCreate (typedSettings cmp n) := by
  by_cases hn : n = 0
  · rw [hn]
    rfl
  · rw [hiInitCmp, hiSetBucketSize, if_neg hn]
    rfl

theorem KeyCodec.shows_empty (K : KeyCodec V) :
    K.Shows (.empty : KeyMap K.cmp δ) fun _ => none where
  get _ := FMap.get_of_absent (by simp [FMap.Absent, FMap.empty])
  keys := by simp [FMap.empty]

/-- Keys that are all encodings are equal when the compare function says so. -/
theorem KeyCodec.Shows.respects {K : KeyCodec V} {m : KeyMap K.cmp δ} {f : V → Option δ}
    (h : K.Shows m f) (op : TypedOp V δ) (hash : HashFunc) :
    hash.Respects K.cmp (mapKeys m (op.lower K).key) := by
  have henc : ∀ k, mapKeys m (op.lower K).key k → ∃ v, k = K.encode v := by
    rintro k (rfl | ⟨p, hp, rfl⟩)
    · cases op <;> exact ⟨_, rfl⟩
    · exact h.keys p hp
  intro k k' hk hk' hsame
  obtain ⟨v, rfl⟩ := henc k hk
  obtain ⟨v', rfl⟩ := henc k' hk'
  rw [K.same_iff.mp hsame]

/-- Settings that the check refuses. -/
theorem runs_hiCreate_refused {s : HiInitSet} {e : Int} {w : World}
    (hs : lhiSetSanityCheck s = .error e) :
    Total (hiCreate s : Prog (Except Int (HiHandle δ))) w fun r _ =>
      (r = .error hiErrSystem ∧ ¬ w.AllocsSucceed) ∨ r = .error e := by
  unfold hiCreate lhiCreateVanillaHdnl
  rw [hs]
  exact runs_bind.mpr (runs_bind.mpr
    (runs_xallocAlign (fun _ w₁ _ _ h _ => .inl ⟨rfl, h⟩) fun _ _ _ _ _ => .inr rfl))

theorem TypedApi.Uses.isMap [DecidableEq V] {A : TypedApi V δ} {c : HashMachine} {K : KeyCodec V}
    (hA : A.Uses c K) : A.IsMap := by
  intro n ops w
  unfold TypedApi.session
  rw [hA.init, hiInitCmp_eq]
  by_cases hn : n = 0
  · subst hn
    refine Runs.bind (runs_hiCreate_refused (e := hiErrNodata) rfl) fun r w₁ _ h₁ => ?_
    rcases h₁ with ⟨rfl, hfail⟩ | rfl
    · exact .inl ⟨rfl, hfail⟩
    · exact .inr (.inl ⟨rfl, rfl⟩)
  · have hcheck := lhiSetSanityCheck_plain (s := typedSettings K.cmp n) hn rfl rfl (.inl rfl)
    refine Runs.bind ((listEngine δ).runs_hiCreate hcheck (.inl rfl)).and_run fun r w₁ _ h₁ => ?_
    obtain ⟨⟨rfl, hfail⟩ | ⟨h, rfl, -, hrep⟩, hrun⟩ := h₁
    · exact .inl ⟨rfl, hfail⟩
    have hmeets : Meets A.call (valueMachine V δ True) (fun _ _ _ _ => True) ops (fun _ => none) h w₁ :=
      Meets.of_forall fun _ _ _ _ => trivial
    refine runs_bind.mpr ((runs_traces (N := fun w w' => valueMachine V δ (w.SomeFailed w'))
      (R := fun h' w' f => ∃ m bs, (listEngine δ).MapRep _ h' w' m bs ∧ K.Shows m f)
      ⟨.empty, _, hrep, K.shows_empty⟩ hmeets fun op h' w' f hR _ => ?_).imp ?_)
    · obtain ⟨m, bs, hrep, hshows⟩ := hR
      rw [hA.call_eq]
      refine (Engine.runs_mapOp K.equivalence ⟨bs, hrep⟩
        ⟨hshows.respects op _, fun ha => (ha rfl).elim⟩).imp ?_
      rintro r w₂ ⟨hallow, bs', hrep'⟩
      obtain ⟨hans, hshows'⟩ := hshows.refines hallow
      exact ⟨hans, rfl, _, bs', hrep', hshows'⟩
    · rintro ⟨rs, h'⟩ w₂ ⟨f, htrace, -⟩
      exact .inr (.inr ⟨h, w₁, rs, h', f, hrun, rfl, hn, htrace⟩)

/-! ## Strings -/

theorem hiCmpStr_eq_zero {key1 key2 : Bytes} :
    hiCmpStr key1 key2 = 0 ↔ key1.takeWhile (· != 0) = key2.takeWhile (· != 0) := by
  have hzero {a : UInt8} : a.toNat = 0 ↔ a = 0 := by
    rw [← UInt8.toNat_inj]
    rfl
  fun_induction hiCmpStr key1 key2 with
  | case1 => simp
  | case2 a key1 => by_cases ha : a = 0 <;> simp [hzero, ha]
  | case3 b key2 => by_cases hb : b = 0 <;> simp [hzero, hb]
  | case4 a key1 b key2 h =>
    have hne : (a.toNat : Int) - b.toNat ≠ 0 := fun heq => h (UInt8.toNat_inj.mp (by omega))
    refine iff_of_false hne fun heq => h ?_
    rw [List.takeWhile_cons, List.takeWhile_cons] at heq
    by_cases ha : a = 0 <;> by_cases hb : b = 0 <;> simp_all
  | case5 key1 b key2 h =>
    rw [← not_not.mp h]
    simp
  | case6 a key1 b key2 h ha ih =>
    obtain rfl : a = b := not_not.mp h
    simp [ha, ih]

theorem takeWhile_string {bytes : Bytes} (h : ∀ b ∈ bytes, b ≠ 0) :
    (bytes ++ [0]).takeWhile (· != 0) = bytes := by
  rw [List.takeWhile_append_of_pos fun b hb => by simpa using h b hb]
  simp

def strCodec : KeyCodec CString where
  encode key := ⟨key.bytes ++ [0], by simpa using key.fits⟩
  cmp := hiCmpStr
  equivalence :=
    { refl := fun _ => hiCmpStr_eq_zero.mpr rfl
      symm := fun h => hiCmpStr_eq_zero.mpr (hiCmpStr_eq_zero.mp h).symm
      trans := fun h h' =>
        hiCmpStr_eq_zero.mpr ((hiCmpStr_eq_zero.mp h).trans (hiCmpStr_eq_zero.mp h')) }
  same_iff {a b} := by
    rw [KeyCmp.same, hiCmpStr_eq_zero, takeWhile_string a.nonzero, takeWhile_string b.nonzero]
    cases a
    cases b
    simp

/-! ## Integers -/

theorem intBytes_succ {n x : Nat} : intBytes (n + 1) x = UInt8.ofNat x :: intBytes n (x / 256) := by
  rw [intBytes, List.range_succ_eq_map, List.map_cons, List.map_map, Nat.pow_zero, Nat.div_one]
  refine congrArg (UInt8.ofNat x :: ·) (List.map_congr_left fun i _ => ?_)
  rw [Function.comp_apply, Nat.div_div_eq_div_mul, Nat.pow_succ']

theorem readInt_intBytes {n x : Nat} : readInt n (intBytes n x) = x % 256 ^ n := by
  induction n generalizing x with
  | zero => simp [readInt, Nat.mod_one]
  | succ n ih =>
    have hrest : ((intBytes n (x / 256)).take n).foldr (fun byte rest => byte.toNat + 256 * rest) 0 =
        x / 256 % 256 ^ n := ih
    have hpow : 256 ^ (n + 1) = 256 * 256 ^ n := Nat.pow_succ'
    rw [readInt, intBytes_succ, List.take_succ_cons, List.foldr_cons, hrest, UInt8.toNat_ofNat',
      hpow, Nat.mod_mul]

theorem length_intBytes {n x : Nat} : (intBytes n x).length = n := by
  rw [intBytes, List.length_map, List.length_range]

/-- The bytes of an integer of two or of four bytes as a key. -/
def int16Key (x : UInt16) : Key := ⟨intBytes 2 x.toNat, by rw [length_intBytes]; decide⟩

def int32Key (x : UInt32) : Key := ⟨intBytes 4 x.toNat, by rw [length_intBytes]; decide⟩

theorem ofNat_readInt_int16Key {x : UInt16} :
    BitVec.ofNat 16 (readInt 2 (int16Key x).bytes) = x.toBitVec := by
  have hlt := x.toNat_lt
  refine BitVec.eq_of_toNat_eq ?_
  rw [int16Key, readInt_intBytes, BitVec.toNat_ofNat, show 256 ^ 2 = 2 ^ 16 from rfl, Nat.mod_mod,
    Nat.mod_eq_of_lt hlt, UInt16.toNat_toBitVec]

theorem ofNat_readInt_int32Key {x : UInt32} :
    BitVec.ofNat 32 (readInt 4 (int32Key x).bytes) = x.toBitVec := by
  have hlt := x.toNat_lt
  refine BitVec.eq_of_toNat_eq ?_
  rw [int32Key, readInt_intBytes, BitVec.toNat_ofNat, show 256 ^ 4 = 2 ^ 32 from rfl, Nat.mod_mod,
    Nat.mod_eq_of_lt hlt, UInt32.toNat_toBitVec]

def int16TCodec : KeyCodec Int16 where
  encode key := int16Key key.toUInt16
  cmp := hiCmpInt16T
  equivalence := orderOn_hiCmpInt16T.equivalence
  same_iff {a b} := by
    rw [KeyCmp.same, hiCmpInt16T, ofNat_readInt_int16Key, ofNat_readInt_int16Key, Int.sub_eq_zero,
      BitVec.toInt_inj, UInt16.toBitVec_inj]
    exact ⟨fun h => congrArg Int16.ofUInt16 h, congrArg Int16.toUInt16⟩

def uint16TCodec : KeyCodec UInt16 where
  encode := int16Key
  cmp := hiCmpUint16T
  equivalence := orderOn_hiCmpUint16T.equivalence
  same_iff {a b} := by
    rw [KeyCmp.same, hiCmpUint16T, ofNat_readInt_int16Key, ofNat_readInt_int16Key, Int.sub_eq_zero,
      Int.natCast_inj, UInt16.toNat_toBitVec, UInt16.toNat_toBitVec, UInt16.toNat_inj]

def uint32TCodec : KeyCodec UInt32 where
  encode := int32Key
  cmp := hiCmpUint32T
  equivalence := equivalence_same_uint32T
  same_iff {a b} := by
    rw [same_iff_number, Key.number, Key.number, ofNat_readInt_int32Key, ofNat_readInt_int32Key,
      UInt32.toBitVec_inj]

def int32TCodec : KeyCodec Int32 where
  encode key := int32Key key.toUInt32
  cmp := hiCmpInt32T
  equivalence := equivalence_same_uint32T
  -- The two functions for 32 bits compute the same.
  same_iff := uint32TCodec.same_iff.trans
    ⟨fun h => congrArg Int32.ofUInt32 h, congrArg Int32.toUInt32⟩

/-! ## The five tables -/

def strApi (c : HashMachine) : TypedApi CString δ :=
  ⟨hiInitStr c, hiInsertStr, hiGetStr, hiRemoveStr⟩

def int16TApi (c : HashMachine) : TypedApi Int16 δ :=
  ⟨hiInitInt16T c, hiInsertInt16T, hiGetInt16T, hiRemoveInt16T⟩

def uint16TApi (c : HashMachine) : TypedApi UInt16 δ :=
  ⟨hiInitUint16T c, hiInsertUint16T, hiGetUint16T, hiRemoveUint16T⟩

def int32TApi (c : HashMachine) : TypedApi Int32 δ :=
  ⟨hiInitInt32T c, hiInsertInt32T, hiGetInt32T, hiRemoveInt32T⟩

def uint32TApi (c : HashMachine) : TypedApi UInt32 δ :=
  ⟨hiInitUint32T c, hiInsertUint32T, hiGetUint32T, hiRemoveUint32T⟩

section Uses

variable {c : HashMachine}

theorem keylen_str {key : CString} :
    (strCodec.encode key).keylen = UInt32.ofNat (key.bytes.length + 1) := by
  rw [Key.keylen, strCodec, List.length_append, List.length_singleton]

theorem keylen_int16Key {x : UInt16} : (int16Key x).keylen = 2 := by
  rw [Key.keylen, int16Key, length_intBytes]
  rfl

theorem keylen_int32Key {x : UInt32} : (int32Key x).keylen = 4 := by
  rw [Key.keylen, int32Key, length_intBytes]
  rfl

theorem strApi_uses : (strApi c : TypedApi CString δ).Uses c strCodec where
  init _ := rfl
  insert _ _ _ := by rw [keylen_str]; rfl
  get _ _ := by rw [keylen_str]; rfl
  remove _ _ := by rw [keylen_str]; rfl

theorem int16TApi_uses : (int16TApi c : TypedApi Int16 δ).Uses c int16TCodec where
  init _ := rfl
  insert _ _ _ := by rw [int16TCodec, keylen_int16Key]; rfl
  get _ _ := by rw [int16TCodec, keylen_int16Key]; rfl
  remove _ _ := by rw [int16TCodec, keylen_int16Key]; rfl

theorem uint16TApi_uses : (uint16TApi c : TypedApi UInt16 δ).Uses c uint16TCodec where
  init _ := rfl
  insert _ _ _ := by rw [uint16TCodec, keylen_int16Key]; rfl
  get _ _ := by rw [uint16TCodec, keylen_int16Key]; rfl
  remove _ _ := by rw [uint16TCodec, keylen_int16Key]; rfl

theorem int32TApi_uses : (int32TApi c : TypedApi Int32 δ).Uses c int32TCodec where
  init _ := rfl
  insert _ _ _ := by rw [int32TCodec, keylen_int32Key]; rfl
  get _ _ := by rw [int32TCodec, keylen_int32Key]; rfl
  remove _ _ := by rw [int32TCodec, keylen_int32Key]; rfl

theorem uint32TApi_uses : (uint32TApi c : TypedApi UInt32 δ).Uses c uint32TCodec where
  init _ := rfl
  insert _ _ _ := by rw [uint32TCodec, keylen_int32Key]; rfl
  get _ _ := by rw [uint32TCodec, keylen_int32Key]; rfl
  remove _ _ := by rw [uint32TCodec, keylen_int32Key]; rfl

end Uses

/-- A string or an integer that is inserted is found under every equal value and no other. The
32-bit functions are no order, but the list engine only asks for equality. -/
theorem typed_tables_are_maps (c : HashMachine) :
    (strApi c : TypedApi CString δ).IsMap ∧ (int16TApi c : TypedApi Int16 δ).IsMap ∧
      (uint16TApi c : TypedApi UInt16 δ).IsMap ∧ (int32TApi c : TypedApi Int32 δ).IsMap ∧
      (uint32TApi c : TypedApi UInt32 δ).IsMap :=
  ⟨strApi_uses.isMap, int16TApi_uses.isMap, uint16TApi_uses.isMap, int32TApi_uses.isMap,
    uint32TApi_uses.isMap⟩

end Hashish
