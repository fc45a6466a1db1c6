import Hashish.BloomFilter
import Hashish.Lib.BitMap
import Hashish.Lib.Calls

/-!
# What a Bloom filter holds

A key covers the positions that the first `k` hash functions give for it. The map of
a filter holds the positions covered by the keys that were added, and nothing else.

* `bloom_filter_holds_keys`: the check of a key succeeds exactly when its positions
  are covered.
* `bloom_calls_in_bounds_iff`: which filters `hi_bloom_init_mk` gives out without
  a call on them leaving its arrays or dividing by zero.
-/

namespace Hashish

open Hashish.Lib

variable {lhiHashmap : List BloomHash} {bh : HiBloomHandle} {m k : UInt32} {S : Set Nat}
  {E : Fault → Prop} {w : World}

/-! ## Bits and masks -/

theorem toNat_bitMask (bit : UInt32) : ((1 : UInt32) <<< (bit &&& 7)).toNat = 2 ^ (bit.toNat % 8) := by
  have hlt : bit.toNat % 8 < 8 := Nat.mod_lt _ (by decide)
  have hpow : 2 ^ (bit.toNat % 8) < 2 ^ 32 := Nat.pow_lt_pow_right (by decide) (by omega)
  have hand : bit.toNat &&& 7 = bit.toNat % 8 := Nat.and_two_pow_sub_one_eq_mod bit.toNat 3
  rw [UInt32.toNat_shiftLeft, UInt32.toNat_and, show (7 : UInt32).toNat = 7 from rfl, hand,
    Nat.mod_eq_of_lt (show bit.toNat % 8 < 32 by omega), show (1 : UInt32).toNat = 1 from rfl,
    Nat.one_shiftLeft, Nat.mod_eq_of_lt hpow]

/-- The mask tests the bit. -/
theorem and_bitMask (byte : UInt8) (bit : UInt32) :
    byte.toUInt32 &&& 1 <<< (bit &&& 7) = 0 ↔ byte.toNat.testBit (bit.toNat % 8) = false := by
  rw [← UInt32.toNat_inj, UInt32.toNat_and, UInt8.toNat_toUInt32, toNat_bitMask, Nat.and_two_pow]
  cases byte.toNat.testBit (bit.toNat % 8) <;> simp

/-- The mask sets the bit. -/
theorem or_bitMask (byte : UInt8) (bit : UInt32) :
    (byte.toUInt32 ||| 1 <<< (bit &&& 7)).toUInt8 = setByteBit byte bit.toNat := by
  refine UInt8.toNat_inj.mp ?_
  rw [UInt32.toNat_toUInt8, UInt32.toNat_or, UInt8.toNat_toUInt32, toNat_bitMask,
    ← toNat_setByteBit, Nat.mod_eq_of_lt (UInt8.toNat_lt _)]

/-! ## Covered positions -/

/-- The position that a hash function gives for a key. -/
def bloomPosition (m : UInt32) (key : Key) (hash : BloomHash) : Nat :=
  (hash key.bytes key.keylen % m).toNat

/-- The positions of a key. -/
def keyPositions (hashes : List BloomHash) (m : UInt32) (key : Key) : Set Nat :=
  {b | ∃ hash ∈ hashes, bloomPosition m key hash = b}

/-- The positions covered by some keys. -/
def coveredPositions (hashes : List BloomHash) (m : UInt32) (keys : List Key) : Set Nat :=
  {b | ∃ key ∈ keys, b ∈ keyPositions hashes m key}

theorem bloomPosition_lt {key : Key} {hash : BloomHash} (hm : m ≠ 0) :
    bloomPosition m key hash < m.toNat := by
  rw [bloomPosition, UInt32.toNat_mod]
  exact Nat.mod_lt _ (Nat.pos_of_ne_zero fun h => hm (UInt32.toNat_inj.mp h))

theorem keyPositions_take_succ {key : Key} {hash : BloomHash} {i : Nat}
    (h : lhiHashmap[i]? = some hash) :
    keyPositions (lhiHashmap.take (i + 1)) m key =
      insert (bloomPosition m key hash) (keyPositions (lhiHashmap.take i) m key) := by
  ext b
  rw [Set.mem_insert_iff, keyPositions, List.take_add_one, h]
  simp only [Set.mem_ofPred_eq, Option.toList_some, List.mem_append, List.mem_singleton]
  constructor
  · rintro ⟨f, hf | rfl, rfl⟩
    · exact .inr ⟨f, hf, rfl⟩
    · exact .inl rfl
  · rintro (rfl | ⟨f, hf, rfl⟩)
    · exact ⟨hash, .inr rfl, rfl⟩
    · exact ⟨f, .inl hf, rfl⟩

theorem coveredPositions_cons {hashes : List BloomHash} {key : Key} {keys : List Key} :
    coveredPositions hashes m (key :: keys) =
      keyPositions hashes m key ∪ coveredPositions hashes m keys := by
  ext b
  simp [coveredPositions]

/-! ## Filters -/

/-- The filter with a position covered once more. -/
def HiBloomHandle.cover (bh : HiBloomHandle) (b : Nat) : HiBloomHandle :=
  { bh with
    bitCollision :=
      if bitAt bh.filterMap.cells b = true then bh.bitCollision + 1 else bh.bitCollision
    filterMap := { bh.filterMap with cells := setBit bh.filterMap.cells b } }

/-- The filter was created with `m` and `k`, and its map holds the positions `S`. -/
structure BloomRep (lhiHashmap : List BloomHash) (m k : UInt32) (bh : HiBloomHandle)
    (S : Set Nat) : Prop where
  bits : bh.m = m
  hashes : bh.k = k
  known : k.toNat ≤ lhiHashmap.length
  addr : bh.filterMap.addr ≠ none
  length : 8 * bh.filterMap.cells.length = m.toNat
  holds : BitsOf bh.filterMap.cells S

namespace BloomRep

/-- The `k` functions of a filter are in the table. -/
theorem exists_hash (h : BloomRep lhiHashmap m k bh S) {i : Nat} (hi : i < k.toNat) :
    ∃ hash, lhiHashmap[i]? = some hash :=
  ⟨_, List.getElem?_eq_getElem (hi.trans_le h.known)⟩

/-- The byte of a position lies in the map. -/
theorem byte_lt (h : BloomRep lhiHashmap m k bh S) (hm : m ≠ 0) (key : Key) (hash : BloomHash) :
    bloomPosition m key hash / 8 < bh.filterMap.cells.length :=
  Nat.div_lt_of_lt_mul (h.length ▸ bloomPosition_lt hm)

theorem runs_bitOf (h : BloomRep lhiHashmap m k bh S) (hm : m ≠ 0) {key : Key} {hash : BloomHash}
    {i : Nat} (hi : lhiHashmap[i]? = some hash) {Q : Nat × UInt32 → World → Prop} :
    Runs E (bh.bitOf lhiHashmap key.bytes key.keylen i) w Q ↔
      Q (bloomPosition m key hash / 8, 1 <<< (hash key.bytes key.keylen % m &&& 7)) w := by
  have hdiv : (hash key.bytes key.keylen % m / 8).toNat = bloomPosition m key hash / 8 :=
    UInt32.toNat_div _ _
  simp only [HiBloomHandle.bitOf, hi, h.bits, umod, if_neg hm, runs_bind, runs_pure, hdiv]

/-- One step of an addition. -/
theorem runs_bloomAddStep_eq (h : BloomRep lhiHashmap m k bh S) (hm : m ≠ 0) {key : Key}
    {hash : BloomHash} {i : Nat} (hi : lhiHashmap[i]? = some hash)
    {Q : HiBloomHandle → World → Prop} (hQ : Q (bh.cover (bloomPosition m key hash)) w) :
    Runs E (bloomAddStep lhiHashmap key.bytes key.keylen i bh) w Q := by
  have hlt := h.byte_lt hm key hash
  refine runs_bind.mpr ((h.runs_bitOf hm hi).mpr ?_)
  refine runs_bind.mpr (Block.runs_load h.addr (List.getElem?_eq_getElem hlt) ?_)
  refine runs_bind.mpr (Block.runs_store h.addr hlt ?_)
  have hcells : bh.filterMap.cells.set (bloomPosition m key hash / 8)
      (bh.filterMap.cells[bloomPosition m key hash / 8].toUInt32 |||
        1 <<< (hash key.bytes key.keylen % m &&& 7)).toUInt8 =
      setBit bh.filterMap.cells (bloomPosition m key hash) := by
    rw [or_bitMask, setBit, List.getD_eq_getElem?_getD, List.getElem?_eq_getElem hlt,
      Option.getD_some]
    exact rfl
  have hset : bh.filterMap.cells[bloomPosition m key hash / 8].toUInt32 &&&
      1 <<< (hash key.bytes key.keylen % m &&& 7) ≠ 0 ↔
      bitAt bh.filterMap.cells (bloomPosition m key hash) = true := by
    rw [ne_eq, and_bitMask, Bool.not_eq_false, bitAt, List.getD_eq_getElem?_getD,
      List.getElem?_eq_getElem hlt, Option.getD_some]
    exact Iff.rfl
  rw [runs_pure, hcells]
  simp only [hset]
  exact hQ

/-- A position that is covered. -/
theorem cover (h : BloomRep lhiHashmap m k bh S) {b : Nat} (hb : b < m.toNat) :
    BloomRep lhiHashmap m k (bh.cover b) (insert b S) where
  bits := h.bits
  hashes := h.hashes
  known := h.known
  addr := h.addr
  length := (congrArg (8 * ·) length_setBit).trans h.length
  holds := h.holds.setBit (h.length ▸ hb)

/-- One step of an addition covers one position. -/
theorem runs_bloomAddStep (h : BloomRep lhiHashmap m k bh S) (hm : m ≠ 0) {key : Key}
    {hash : BloomHash} {i : Nat} (hi : lhiHashmap[i]? = some hash) :
    Total (bloomAddStep lhiHashmap key.bytes key.keylen i bh) w fun bh' _ =>
      BloomRep lhiHashmap m k bh' (insert (bloomPosition m key hash) S) :=
  h.runs_bloomAddStep_eq hm hi (h.cover (bloomPosition_lt hm))

/-- An addition covers the positions of the key. -/
theorem runs_hiBloomFilterAdd (h : BloomRep lhiHashmap m k bh S) (hm : m ≠ 0 ∨ k = 0) (key : Key) :
    Total (hiBloomFilterAdd lhiHashmap bh key.bytes key.keylen) w fun bh' _ =>
      BloomRep lhiHashmap m k bh' (keyPositions (lhiHashmap.take k.toNat) m key ∪ S) := by
  unfold hiBloomFilterAdd
  rw [show bh.k.toNat = k.toNat from congrArg _ h.hashes]
  have hstart : BloomRep lhiHashmap m k { bh with n := bh.n + 1 }
      (keyPositions (lhiHashmap.take 0) m key ∪ S) := by
    have hempty : keyPositions (lhiHashmap.take 0) m key ∪ S = S := by
      ext b
      simp [keyPositions]
    rw [hempty]
    exact ⟨h.bits, h.hashes, h.known, h.addr, h.length, h.holds⟩
  have hbody : ∀ j bh' s, 0 ≤ j → j < 0 + k.toNat →
      BloomRep lhiHashmap m k bh' (keyPositions (lhiHashmap.take j) m key ∪ S) →
      Total (bloomAddStep lhiHashmap key.bytes key.keylen j bh') s fun bh'' _ =>
        BloomRep lhiHashmap m k bh'' (keyPositions (lhiHashmap.take (j + 1)) m key ∪ S) := by
    intro j bh' s _ hj h'
    rw [Nat.zero_add] at hj
    have hm' : m ≠ 0 := hm.resolve_right fun hk => by simp [hk] at hj
    obtain ⟨hash, hi⟩ := h.exists_hash hj
    refine (h'.runs_bloomAddStep hm' hi).imp fun bh'' _ h'' => ?_
    rwa [keyPositions_take_succ hi, Set.insert_union]
  have hloop := runs_forUp (s := w) (I := fun j bh' _ => BloomRep lhiHashmap m k bh'
    (keyPositions (lhiHashmap.take j) m key ∪ S)) hstart hbody
  rwa [Nat.zero_add] at hloop

/-- A check finds out whether the positions of the key are covered. -/
theorem runs_bloomCheckLoop (h : BloomRep lhiHashmap m k bh S) (hm : m ≠ 0) {key : Key} {n i : Nat}
    (hn : i + n = k.toNat) :
    Total (bloomCheckLoop lhiHashmap bh key.bytes key.keylen n i) w fun ret _ =>
      (ret = 1 ∧ ∀ hash ∈ (lhiHashmap.take k.toNat).drop i, bloomPosition m key hash ∈ S) ∨
      (ret = 0 ∧ ∃ hash ∈ lhiHashmap.take k.toNat, bloomPosition m key hash ∉ S) := by
  induction n generalizing i with
  | zero =>
    refine .inl ⟨rfl, fun hash hhash => ?_⟩
    rw [List.drop_eq_nil_of_le (by rw [List.length_take]; omega)] at hhash
    cases hhash
  | succ n ih =>
    obtain ⟨hash, hi⟩ := h.exists_hash (i := i) (by omega)
    have hlt := h.byte_lt hm key hash
    have hi' : (lhiHashmap.take k.toNat)[i]? = some hash := by
      rw [List.getElem?_take_of_lt (by omega), hi]
    have hset : bitAt bh.filterMap.cells (bloomPosition m key hash) = true ↔
        bloomPosition m key hash ∈ S :=
      h.holds _ (h.length ▸ bloomPosition_lt hm)
    rw [bitAt, List.getD_eq_getElem?_getD, List.getElem?_eq_getElem hlt, Option.getD_some] at hset
    refine runs_bind.mpr ((h.runs_bitOf hm hi).mpr ?_)
    refine runs_bind.mpr (Block.runs_load h.addr (List.getElem?_eq_getElem hlt) ?_)
    refine runs_ite.mpr ⟨fun hzero => ?_, fun hone => ?_⟩
    · refine .inr ⟨rfl, hash, List.mem_of_getElem? hi', fun hmem => ?_⟩
      rw [and_bitMask] at hzero
      exact Bool.false_ne_true (hzero.symm.trans (hset.mpr hmem))
    · have hmem : bloomPosition m key hash ∈ S := hset.mp (by
        rw [and_bitMask, Bool.not_eq_false] at hone
        exact hone)
      refine (ih (i := i + 1) (by omega)).imp fun ret _ hret => hret.imp_left ?_
      rintro ⟨hret, hrest⟩
      refine ⟨hret, fun f hf => ?_⟩
      obtain ⟨hlt', hget⟩ := List.getElem?_eq_some_iff.mp hi'
      rw [List.drop_eq_getElem_cons hlt', hget] at hf
      rcases List.mem_cons.mp hf with rfl | hf
      · exact hmem
      · exact hrest f hf

theorem runs_hiBloomFilterCheck (h : BloomRep lhiHashmap m k bh S) (hm : m ≠ 0 ∨ k = 0) (key : Key) :
    Total (hiBloomFilterCheck lhiHashmap bh key.bytes key.keylen) w fun ret _ =>
      (ret = 1 ∧ keyPositions (lhiHashmap.take k.toNat) m key ⊆ S) ∨
      (ret = 0 ∧ ¬ keyPositions (lhiHashmap.take k.toNat) m key ⊆ S) := by
  unfold hiBloomFilterCheck
  rw [h.hashes]
  by_cases hk : k = 0
  · subst hk
    refine .inl ⟨rfl, ?_⟩
    rintro b ⟨hash, hhash, -⟩
    cases hhash
  · refine (h.runs_bloomCheckLoop (hm.resolve_right hk) (Nat.zero_add _)).imp fun ret _ hret => ?_
    refine hret.imp ?_ ?_
    · rintro ⟨hret, hall⟩
      refine ⟨hret, ?_⟩
      rintro b ⟨hash, hhash, rfl⟩
      exact hall hash hhash
    · rintro ⟨hret, hash, hhash, hnot⟩
      exact ⟨hret, fun hsub => hnot (hsub ⟨hash, hhash, rfl⟩)⟩

/-- Filters that hold the same positions have the same map. -/
theorem filterMap_eq {bh' : HiBloomHandle} (h : BloomRep lhiHashmap m k bh S)
    (h' : BloomRep lhiHashmap m k bh' S) : bh'.filterMap.cells = bh.filterMap.cells :=
  h'.holds.unique h.holds (Nat.eq_of_mul_eq_mul_left (by decide) (h'.length.trans h.length.symm))

end BloomRep

/-- A new filter holds nothing. -/
theorem runs_hiBloomInitMk :
    Runs E (hiBloomInitMk lhiHashmap m k) w fun r _ =>
      ∀ bh, r = .ok bh → BloomRep lhiHashmap m k bh ∅ := by
  unfold hiBloomInitMk
  refine runs_ite.mpr ⟨fun _ => by simp, fun hm => ?_⟩
  refine runs_ite.mpr ⟨fun _ => by simp, fun hk => ?_⟩
  refine runs_bind.mpr (runs_xallocAlign (fun _ _ _ _ _ _ => by simp) fun _ w₁ _ _ _ => ?_)
  refine runs_bind.mpr (runs_xallocAlign (fun _ _ _ _ _ _ => by simp) fun _ w₂ _ _ _ => ?_)
  simp only [runs_pure, Except.ok.injEq, forall_eq']
  refine ⟨rfl, rfl, Nat.not_lt.mp hk, by simp, ?_, bitsOf_zero _⟩
  have hmod : m.toNat % 8 = 0 := by
    by_cases hzero : m = 0
    · rw [hzero]
      rfl
    · have hpos : m > 0 := UInt32.pos_iff_ne_zero.mpr hzero
      have hrest : m % 8 = 0 := by
        by_contra hne
        exact hm ⟨hne, hpos⟩
      exact congrArg UInt32.toNat hrest
  rw [List.length_replicate, UInt32.toNat_div]
  exact Nat.mul_div_cancel' (Nat.dvd_of_mod_eq_zero hmod)

/-! ## Runs of calls -/

/-- A filter in abstract terms: a set of positions. -/
def bloomMachine (hashes : List BloomHash) (m : UInt32) :
    Machine BloomCall (Option Int) (Set Nat) where
  allows S c ret :=
    match c with
    | .add _ => ret = none
    | .check key => (ret = some 1 ∧ keyPositions hashes m key ⊆ S) ∨
        (ret = some 0 ∧ ¬ keyPositions hashes m key ⊆ S)
  next S c _ :=
    match c with
    | .add key => keyPositions hashes m key ∪ S
    | .check _ => S

/-- The positions after some calls are the old ones and those of the keys that were added. -/
theorem bloomMachine_trace {hashes : List BloomHash} {ops : List BloomCall}
    {rets : List (Option Int)} {S' : Set Nat}
    (h : (bloomMachine hashes m).Trace S ops rets S') :
    S' = coveredPositions hashes m (addedKeys ops) ∪ S := by
  induction ops generalizing S rets with
  | nil =>
    cases rets with
    | nil =>
      obtain rfl : S = S' := h
      ext b
      simp [addedKeys, coveredPositions]
    | cons ret rets => exact h.elim
  | cons c ops ih =>
    cases rets with
    | nil => exact h.elim
    | cons ret rets =>
      have hS' := ih h.2
      cases c with
      | add key =>
        rw [addedKeys, coveredPositions_cons, Set.union_comm (keyPositions hashes m key),
          Set.union_assoc]
        exact hS'
      | check key => exact hS'

namespace BloomRep

variable {ops : List BloomCall}

/-- Every run of calls is a run of the abstract filter. -/
theorem runs_calls (h : BloomRep lhiHashmap m k bh S) (hm : m ≠ 0 ∨ k = 0) :
    Total (Prog.calls (BloomCall.call lhiHashmap) ops bh) w fun r _ => ∃ S',
      (bloomMachine (lhiHashmap.take k.toNat) m).Trace S ops r.1 S' ∧
      BloomRep lhiHashmap m k r.2 S' := by
  have hmeets : Meets (BloomCall.call lhiHashmap) (bloomMachine (lhiHashmap.take k.toNat) m)
      (fun _ _ _ _ => True) ops S bh w := Meets.of_forall fun _ _ _ _ => trivial
  refine Lib.runs_calls (R := fun bh _ S => BloomRep lhiHashmap m k bh S) h hmeets ?_
  intro c bh w S h _
  cases c with
  | add key =>
    refine runs_bind.mpr ((h.runs_hiBloomFilterAdd hm key).imp fun bh' _ h' => ?_)
    exact ⟨rfl, h'⟩
  | check key =>
    refine runs_bind.mpr ((h.runs_hiBloomFilterCheck hm key).imp fun ret _ hret => ?_)
    exact ⟨hret.imp (fun hr => ⟨by rw [hr.1], hr.2⟩) fun hr => ⟨by rw [hr.1], hr.2⟩, h⟩

/-- A run of calls covers the positions of the keys it adds. -/
theorem runs_calls_covered (h : BloomRep lhiHashmap m k bh ∅) (hm : m ≠ 0 ∨ k = 0) :
    Total (Prog.calls (BloomCall.call lhiHashmap) ops bh) w fun r _ =>
      BloomRep lhiHashmap m k r.2
        (coveredPositions (lhiHashmap.take k.toNat) m (addedKeys ops)) := by
  refine (h.runs_calls hm).imp fun r _ h' => ?_
  obtain ⟨S', ht, hrep⟩ := h'
  rw [bloomMachine_trace ht, Set.union_empty] at hrep
  exact hrep

end BloomRep

/-- A filter that `hi_bloom_init_mk` gave out holds exactly the positions of the keys that were
added. A check succeeds when all positions of its key are held, so it succeeds for every key that
was added, and goes on to succeed. The order and the number of the additions do not matter. -/
theorem bloom_filter_holds_keys {w₀ : World} (hm : m ≠ 0)
    (hcreate : (hiBloomInitMk lhiHashmap m k).run w = .ok (.ok bh, w₀)) (ops : List BloomCall) :
    Total (Prog.calls (BloomCall.call lhiHashmap) ops bh) w₀ fun r _ =>
      (∀ b < m.toNat, bitAt r.2.filterMap.cells b = true ↔
        ∃ x ∈ addedKeys ops, ∃ hash ∈ lhiHashmap.take k.toNat, bloomPosition m x hash = b) ∧
      (∀ (y : Key) w₁, Total (hiBloomFilterCheck lhiHashmap r.2 y.bytes y.keylen) w₁ fun ret _ =>
        (ret = 0 ∨ ret = 1) ∧ (ret = 1 ↔ ∀ hash ∈ lhiHashmap.take k.toNat,
          bitAt r.2.filterMap.cells (bloomPosition m y hash) = true)) ∧
      (∀ x ∈ addedKeys ops, ∀ w₁, Total (hiBloomFilterCheck lhiHashmap r.2 x.bytes x.keylen) w₁
        fun ret _ => ret = 1) ∧
      (∀ ops', (∀ x, x ∈ addedKeys ops' ↔ x ∈ addedKeys ops) →
        Total (Prog.calls (BloomCall.call lhiHashmap) ops' bh) w₀ fun r' _ =>
          r'.2.filterMap.cells = r.2.filterMap.cells) ∧
      (∀ (y z : Key) w₁, Total (hiBloomFilterCheck lhiHashmap r.2 y.bytes y.keylen) w₁
          (fun ret _ => ret = 1) →
        Total (hiBloomFilterAdd lhiHashmap r.2 z.bytes z.keylen) w₁ fun bh' w₂ =>
          Total (hiBloomFilterCheck lhiHashmap bh' y.bytes y.keylen) w₂ fun ret _ => ret = 1) := by
  have hnew : BloomRep lhiHashmap m k bh ∅ :=
    (runs_hiBloomInitMk (E := fun _ => True)).of_run hcreate bh rfl
  refine (hnew.runs_calls_covered (.inl hm)).imp fun r _ h => ?_
  have hbit : ∀ b < m.toNat, bitAt r.2.filterMap.cells b = true ↔
      b ∈ coveredPositions (lhiHashmap.take k.toNat) m (addedKeys ops) := fun b hb =>
    h.holds b (h.length.symm ▸ hb)
  have hcheck : ∀ (y : Key) w₁, Total (hiBloomFilterCheck lhiHashmap r.2 y.bytes y.keylen) w₁
      fun ret _ => (ret = 1 ∧ keyPositions (lhiHashmap.take k.toNat) m y ⊆
          coveredPositions (lhiHashmap.take k.toNat) m (addedKeys ops)) ∨
        (ret = 0 ∧ ¬ keyPositions (lhiHashmap.take k.toNat) m y ⊆
          coveredPositions (lhiHashmap.take k.toNat) m (addedKeys ops)) :=
    fun y _ => h.runs_hiBloomFilterCheck (.inl hm) y
  refine ⟨hbit, fun y w₁ => (hcheck y w₁).imp fun ret _ hret => ?_, fun x hx w₁ => ?_,
    fun ops' hsame => ?_, fun y z w₁ hy => ?_⟩
  · have hsub : keyPositions (lhiHashmap.take k.toNat) m y ⊆
        coveredPositions (lhiHashmap.take k.toNat) m (addedKeys ops) ↔
        ∀ hash ∈ lhiHashmap.take k.toNat,
          bitAt r.2.filterMap.cells (bloomPosition m y hash) = true := by
      constructor
      · intro hs hash hhash
        exact (hbit _ (bloomPosition_lt hm)).mpr (hs ⟨hash, hhash, rfl⟩)
      · rintro hs b ⟨hash, hhash, rfl⟩
        exact (hbit _ (bloomPosition_lt hm)).mp (hs hash hhash)
    rcases hret with ⟨rfl, hs⟩ | ⟨rfl, hs⟩
    · exact ⟨.inr rfl, fun _ => hsub.mp hs, fun _ => rfl⟩
    · exact ⟨.inl rfl, nofun, fun hall => (hs (hsub.mpr hall)).elim⟩
  · refine (hcheck x w₁).imp fun ret _ hret => ?_
    rcases hret with ⟨hret, -⟩ | ⟨-, hnot⟩
    · exact hret
    · exact (hnot fun b hb => ⟨x, hx, hb⟩).elim
  · refine (hnew.runs_calls_covered (.inl hm)).imp fun r' _ h' => ?_
    have hcov : coveredPositions (lhiHashmap.take k.toNat) m (addedKeys ops') =
        coveredPositions (lhiHashmap.take k.toNat) m (addedKeys ops) := by
      ext b
      simp only [coveredPositions, Set.mem_ofPred_eq, hsame]
    rw [hcov] at h'
    exact h.filterMap_eq h'
  · -- The positions of `y` are covered, and remain so.
    have hsub : keyPositions (lhiHashmap.take k.toNat) m y ⊆
        coveredPositions (lhiHashmap.take k.toNat) m (addedKeys ops) := by
      obtain ⟨ret, w₂, hrun, rfl⟩ := total_iff.mp hy
      rcases (hcheck y w₁).of_run hrun with ⟨-, hs⟩ | ⟨h₀, -⟩
      · exact hs
      · cases h₀
    refine (h.runs_hiBloomFilterAdd (.inl hm) z).imp fun bh' w₂ h' => ?_
    refine (h'.runs_hiBloomFilterCheck (.inl hm) y).imp fun ret _ hret => ?_
    rcases hret with ⟨hret, -⟩ | ⟨-, hnot⟩
    · exact hret
    · exact (hnot (hsub.trans Set.subset_union_right)).elim

/-- A filter of eight bits with two functions, and one key added. -/
theorem bloom_filter_holds_keys_eight :
    ∃ bh w₀, (hiBloomInitMk [lhiHashDumb1, fun _ len => len] 8 2).run (World.start fun _ _ => 0) =
        .ok (.ok bh, w₀) ∧
      Total (Prog.calls (BloomCall.call [lhiHashDumb1, fun _ len => len])
        [.add ⟨[7, 7, 7], by decide⟩] bh) w₀ fun r _ => bitAt r.2.filterMap.cells 3 = true := by
  obtain ⟨bh, w₀, hcreate⟩ : ∃ bh w₀,
      (hiBloomInitMk [lhiHashDumb1, fun _ len => len] 8 2).run (World.start fun _ _ => 0) =
        .ok (.ok bh, w₀) := ⟨_, _, rfl⟩
  refine ⟨bh, w₀, hcreate, ?_⟩
  refine (bloom_filter_holds_keys (by decide) hcreate _).imp fun r _ h => ?_
  exact (h.1 3 (by decide)).mpr ⟨_, List.mem_cons_self, fun _ len => len,
    List.mem_cons_of_mem _ List.mem_cons_self, rfl⟩

/-! ## Bounds -/

/-- The calls on a filter without bits divide by zero. -/
theorem BloomRep.runs_call_zero (h : BloomRep lhiHashmap 0 k bh S) (hk : k ≠ 0) (c : BloomCall) :
    Runs (· = .divByZero) (c.call lhiHashmap bh) w fun _ _ => False := by
  have hpos : 0 < k.toNat := Nat.pos_of_ne_zero fun h => hk (UInt32.toNat_inj.mp h)
  obtain ⟨n, hn⟩ := Nat.exists_eq_add_one.mpr hpos
  obtain ⟨hash, hi⟩ := h.exists_hash hpos
  have hbit : ∀ {bh' : HiBloomHandle} {key : Key} {Q : Nat × UInt32 → World → Prop},
      bh'.m = 0 → Runs (· = .divByZero) (bh'.bitOf lhiHashmap key.bytes key.keylen 0) w Q := by
    intro bh' key Q hbits
    simp [HiBloomHandle.bitOf, hi, hbits, umod]
  have hbk : bh.k.toNat = n + 1 := by rw [h.hashes, hn]
  cases c with
  | add key =>
    refine runs_bind.mpr ?_
    rw [hiBloomFilterAdd, hbk]
    exact runs_bind.mpr (runs_bind.mpr (hbit h.bits))
  | check key =>
    refine runs_bind.mpr ?_
    rw [hiBloomFilterCheck, hbk]
    exact runs_bind.mpr (hbit h.bits)

/-- The filter of `m` bits that `hi_bloom_init_mk` gave out is safe to use, that is, no call divides
by zero, leaves the map or leaves the table of hash functions, exactly if it has a bit, or uses no
hash function, or is not used at all. -/
theorem bloom_calls_in_bounds_iff {w₀ : World}
    (hcreate : (hiBloomInitMk lhiHashmap m k).run w = .ok (.ok bh, w₀)) (ops : List BloomCall) :
    Total (Prog.calls (BloomCall.call lhiHashmap) ops bh) w₀ (fun _ _ => True) ↔
      m ≠ 0 ∨ k = 0 ∨ ops = [] := by
  have hnew : BloomRep lhiHashmap m k bh ∅ :=
    (runs_hiBloomInitMk (E := fun _ => True)).of_run hcreate bh rfl
  constructor
  · intro htotal
    by_contra hbad
    simp only [not_or, not_not] at hbad
    obtain ⟨rfl, hk, hops⟩ := hbad
    obtain ⟨c, ops', rfl⟩ := List.exists_cons_of_ne_nil hops
    obtain ⟨r, w₁, hrun, -⟩ := total_iff.mp (runs_bind.mp htotal)
    exact (hnew.runs_call_zero hk c).of_run hrun
  · rintro (hm | hk | rfl)
    · exact (hnew.runs_calls_covered (.inl hm)).imp fun _ _ _ => trivial
    · exact (hnew.runs_calls_covered (.inr hk)).imp fun _ _ _ => trivial
    · trivial

/-- A filter of sixteen bits, and a check of a key that was not added. -/
theorem bloom_calls_in_bounds_iff_sixteen :
    ∃ bh w₀, (hiBloomInitMk [lhiHashDumb1] 16 1).run (World.start fun _ _ => 0) =
        .ok (.ok bh, w₀) ∧
      Total (Prog.calls (BloomCall.call [lhiHashDumb1]) [.check ⟨[5], by decide⟩] bh) w₀
        fun _ _ => True := by
  obtain ⟨bh, w₀, hcreate⟩ : ∃ bh w₀,
      (hiBloomInitMk [lhiHashDumb1] 16 1).run (World.start fun _ _ => 0) = .ok (.ok bh, w₀) :=
    ⟨_, _, rfl⟩
  exact ⟨bh, w₀, hcreate, (bloom_calls_in_bounds_iff hcreate _).mpr (.inl (by decide))⟩

/-- A filter without bits is created, and the first addition divides by zero. -/
theorem empty_bloom_filter_divides :
    ∃ bh w₀, (hiBloomInitMk (List.replicate 7 lhiHashDumb1) 0 1).run (World.start fun _ _ => 0) =
        .ok (.ok bh, w₀) ∧
      (hiBloomFilterAdd (List.replicate 7 lhiHashDumb1) bh [5] 1).run w₀ = .error .divByZero :=
  ⟨_, _, rfl, rfl⟩

end Hashish
