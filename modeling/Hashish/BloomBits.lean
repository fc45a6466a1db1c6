import Hashish.BloomCorrectness
import Mathlib.Data.Nat.ModEq

/-!
# The bits and the counters of a Bloom filter

* `bloom_bit_get_iff`: the accessor tells the bits that the added keys cover, except for
  the number `m`, which passes its check and lies behind the map.
* `bloom_steps_counted`: every step of an addition sets a new bit or counts a collision.
-/

namespace Hashish

open Hashish.Lib

variable {lhiHashmap : List BloomHash} {bh : HiBloomHandle} {m k : UInt32} {S : Set Nat}
  {E : Fault → Prop} {w : World}

/-! ## The accessor -/

/-- The two ways in which the source takes the bit of a byte. -/
theorem mod_eight (bit : UInt32) : bit % 8 = bit &&& 7 := by
  refine UInt32.toNat_inj.mp ?_
  rw [UInt32.toNat_mod, UInt32.toNat_and]
  exact (Nat.and_two_pow_sub_one_eq_mod bit.toNat 3).symm

namespace BloomRep

variable {bit : UInt32}

theorem runs_hiBloomBitGet_of_gt (h : BloomRep lhiHashmap m k bh S) (hbit : m < bit) :
    Runs E (hiBloomBitGet (some bh) bit) w fun ret _ => ret = hiErrRange :=
  runs_ite.mpr ⟨fun _ => rfl, fun hle => (hle (h.bits ▸ hbit)).elim⟩

/-- A number of the map is looked up in the map. -/
theorem runs_hiBloomBitGet (h : BloomRep lhiHashmap m k bh S) (hbit : bit < m) :
    Runs E (hiBloomBitGet (some bh) bit) w fun ret _ =>
      (ret = 1 ∧ bit.toNat ∈ S) ∨ (ret = 0 ∧ bit.toNat ∉ S) := by
  have hin : bit.toNat < 8 * bh.filterMap.cells.length := h.length ▸ UInt32.lt_iff_toNat_lt.mp hbit
  have hlt : bit.toNat / 8 < bh.filterMap.cells.length := Nat.div_lt_of_lt_mul hin
  have hset := h.holds _ hin
  rw [bitAt, List.getD_eq_getElem?_getD, List.getElem?_eq_getElem hlt, Option.getD_some] at hset
  refine runs_ite.mpr ⟨fun hgt => (UInt32.lt_asymm hbit (h.bits ▸ hgt)).elim, fun _ => ?_⟩
  refine runs_bind.mpr (Block.runs_load h.addr (List.getElem?_eq_getElem hlt) ?_)
  rw [runs_pure, mod_eight]
  split
  · next hone =>
    rw [ne_eq, and_bitMask, Bool.not_eq_false] at hone
    exact .inl ⟨rfl, hset.mp hone⟩
  · next hzero =>
    rw [ne_eq, not_not, and_bitMask] at hzero
    exact .inr ⟨rfl, fun hmem => Bool.false_ne_true (hzero.symm.trans (hset.mpr hmem))⟩

/-- The number `m` passes the check, and its byte lies behind the map. -/
theorem runs_hiBloomBitGet_end (h : BloomRep lhiHashmap m k bh S) :
    Runs (· = .badAddress) (hiBloomBitGet (some bh) m) w fun _ _ => False := by
  refine runs_ite.mpr ⟨fun hgt => (UInt32.lt_irrefl _ (h.bits ▸ hgt)).elim, fun _ => ?_⟩
  have hend : bh.filterMap.cells[(m / 8).toNat]? = none := by
    rw [List.getElem?_eq_none_iff, UInt32.toNat_div, ← h.length]
    exact (Nat.mul_div_cancel_left _ (by decide)).ge
  obtain ⟨p, hp⟩ := Option.ne_none_iff_exists'.mp h.addr
  simp only [Block.load, hp, hend, runs_bind, runs_fault]

end BloomRep

/-- The accessor refuses the numbers that are not below `m`, and tells for the others whether an
added key covers them, without leaving the map, exactly if it is not asked for the number `m`. -/
theorem bloom_bit_get_iff {w₀ : World} (hm : m ≠ 0)
    (hcreate : (hiBloomInitMk lhiHashmap m k).run w = .ok (.ok bh, w₀)) (ops : List BloomCall) :
    Total (Prog.calls (BloomCall.call lhiHashmap) ops bh) w₀ fun r w₁ => ∀ bit : UInt32,
      Total (hiBloomBitGet (some r.2) bit) w₁ (fun ret _ =>
        (ret = hiErrRange ↔ m ≤ bit) ∧
        (bit < m → (ret = 0 ∨ ret = 1) ∧
          (ret = 1 ↔ ∃ x ∈ addedKeys ops, ∃ hash ∈ lhiHashmap.take k.toNat,
            bloomPosition m x hash = bit.toNat))) ↔
      bit ≠ m := by
  have hnew : BloomRep lhiHashmap m k bh ∅ :=
    (runs_hiBloomInitMk (E := fun _ => True)).of_run hcreate bh rfl
  refine (hnew.runs_calls_covered (.inl hm)).imp fun r w₁ h bit => ⟨?_, fun hne => ?_⟩
  · rintro htotal rfl
    obtain ⟨ret, w₂, hrun, -⟩ := total_iff.mp htotal
    exact h.runs_hiBloomBitGet_end.of_run hrun
  · rcases UInt32.lt_or_lt_of_ne hne with hlt | hgt
    · refine (h.runs_hiBloomBitGet hlt).imp fun ret _ hret => ?_
      have hnle : ¬ m ≤ bit := UInt32.not_le.mpr hlt
      rcases hret with ⟨rfl, hmem⟩ | ⟨rfl, hnot⟩
      · exact ⟨⟨fun h₁ => absurd h₁ (by decide), fun hle => (hnle hle).elim⟩,
          fun _ => ⟨.inr rfl, fun _ => hmem, fun _ => rfl⟩⟩
      · exact ⟨⟨fun h₀ => absurd h₀ (by decide), fun hle => (hnle hle).elim⟩,
          fun _ => ⟨.inl rfl, fun h₀ => absurd h₀ (by decide), fun hmem => (hnot hmem).elim⟩⟩
    · refine (h.runs_hiBloomBitGet_of_gt hgt).imp fun ret _ hret => ?_
      exact ⟨⟨fun _ => UInt32.le_of_lt hgt, fun _ => hret⟩,
        fun hlt => (UInt32.lt_asymm hlt hgt).elim⟩

/-- A filter of eight bits that holds one key, and the bit the key covers. -/
theorem bloom_bit_get_iff_eight :
    ∃ bh w₀, (hiBloomInitMk [fun _ len => len] 8 1).run (World.start fun _ _ => 0) =
        .ok (.ok bh, w₀) ∧
      Total (Prog.calls (BloomCall.call [fun _ len => len]) [.add ⟨[7, 7, 7], by decide⟩] bh) w₀
        fun r w₁ => Total (hiBloomBitGet (some r.2) 3) w₁ fun ret _ => ret = 1 := by
  obtain ⟨bh, w₀, hcreate⟩ : ∃ bh w₀,
      (hiBloomInitMk [fun _ len => len] 8 1).run (World.start fun _ _ => 0) = .ok (.ok bh, w₀) :=
    ⟨_, _, rfl⟩
  refine ⟨bh, w₀, hcreate, ?_⟩
  refine (bloom_bit_get_iff (by decide) hcreate _).imp fun r w₁ h => ?_
  refine ((h 3).mpr (by decide)).imp fun ret _ hret => ?_
  exact (hret.2 (by decide)).2.mpr ⟨_, List.mem_cons_self, _, List.mem_cons_self, rfl⟩

/-- The accessor of a filter of eight bits reads the byte behind its map. -/
theorem bloom_bit_get_leaves_map :
    ∃ bh w₀, (hiBloomInitMk [fun _ len => len] 8 1).run (World.start fun _ _ => 0) =
        .ok (.ok bh, w₀) ∧
      (hiBloomBitGet (some bh) 8).run w₀ = .error .badAddress :=
  ⟨_, _, rfl, rfl⟩

/-! ## The counters -/

/-- The filter was built in some additions with some steps. -/
structure BloomCounted (bh : HiBloomHandle) (steps adds : Nat) : Prop where
  steps : bitCount bh.filterMap.cells + bh.bitCollision.toNat ≡ steps [MOD 2 ^ 32]
  adds : bh.n.toNat = adds % 2 ^ 32

/-- One step sets a new bit, or counts a collision. -/
def CoversOne (bh bh' : HiBloomHandle) : Prop :=
  (bitCount bh'.filterMap.cells = bitCount bh.filterMap.cells + 1 ∧
    bh'.bitCollision = bh.bitCollision) ∨
  (bitCount bh'.filterMap.cells = bitCount bh.filterMap.cells ∧
    bh'.bitCollision = bh.bitCollision + 1)

theorem HiBloomHandle.coversOne_cover {b : Nat} (hb : b < 8 * bh.filterMap.cells.length) :
    CoversOne bh (bh.cover b) := by
  unfold cover
  cases hbit : bitAt bh.filterMap.cells b with
  | false => exact .inl ⟨bitCount_setBit hb hbit, rfl⟩
  | true => exact .inr ⟨bitCount_setBit_of_set hb hbit, rfl⟩

theorem toNat_succ_mod (n : UInt32) : (n + 1).toNat ≡ n.toNat + 1 [MOD 2 ^ 32] := by
  rw [UInt32.toNat_add]
  exact Nat.mod_modEq _ _

theorem BloomCounted.step {bh' : HiBloomHandle} {steps adds : Nat} (h : BloomCounted bh steps adds)
    (hcov : CoversOne bh bh') (hn : bh'.n = bh.n) : BloomCounted bh' (steps + 1) adds := by
  refine ⟨?_, hn ▸ h.adds⟩
  rcases hcov with ⟨hbits, hcoll⟩ | ⟨hbits, hcoll⟩
  · rw [hbits, hcoll, Nat.add_right_comm]
    exact h.steps.add_right 1
  · rw [hbits, hcoll]
    exact ((toNat_succ_mod _).add_left _).trans (h.steps.add_right 1)

theorem BloomCounted.add {steps adds : Nat} (h : BloomCounted bh steps adds) :
    BloomCounted { bh with n := bh.n + 1 } steps (adds + 1) := by
  refine ⟨h.steps, ?_⟩
  rw [UInt32.toNat_add, h.adds]
  exact Nat.mod_add_mod _ _ _

namespace BloomRep

theorem counted (h : BloomRep lhiHashmap m k bh S) :
    BloomRep lhiHashmap m k { bh with n := bh.n + 1 } S :=
  ⟨h.bits, h.hashes, h.known, h.addr, h.length, h.holds⟩

/-- The first steps of an addition. -/
theorem runs_bloomAddSteps (h : BloomRep lhiHashmap m k bh S) (hm : m ≠ 0) (key : Key)
    {steps adds n : Nat} (hc : BloomCounted bh steps adds) (hn : n ≤ k.toNat) :
    Total (Prog.forUp (bloomAddStep lhiHashmap key.bytes key.keylen) n 0 bh) w fun bh' _ =>
      (∃ S', BloomRep lhiHashmap m k bh' S') ∧ BloomCounted bh' (steps + n) adds := by
  have hbody : ∀ j bh' s, 0 ≤ j → j < 0 + n →
      ((∃ S', BloomRep lhiHashmap m k bh' S') ∧ BloomCounted bh' (steps + j) adds) →
      Total (bloomAddStep lhiHashmap key.bytes key.keylen j bh') s fun bh'' _ =>
        (∃ S', BloomRep lhiHashmap m k bh'' S') ∧ BloomCounted bh'' (steps + (j + 1)) adds := by
    rintro j bh' s - hj ⟨⟨S', h'⟩, hc'⟩
    obtain ⟨hash, hi⟩ := h.exists_hash (i := j) (by omega)
    refine h'.runs_bloomAddStep_eq hm hi ⟨⟨_, h'.cover (bloomPosition_lt hm)⟩, ?_⟩
    exact hc'.step (HiBloomHandle.coversOne_cover (h'.length ▸ bloomPosition_lt hm)) rfl
  have hloop := runs_forUp (s := w) (I := fun j bh' _ =>
    (∃ S', BloomRep lhiHashmap m k bh' S') ∧ BloomCounted bh' (steps + j) adds)
    ⟨⟨S, h⟩, by rwa [Nat.add_zero]⟩ hbody
  rwa [Nat.zero_add] at hloop

/-- The counters after a run of calls. -/
theorem runs_calls_counted (h : BloomRep lhiHashmap m k bh S) (hm : m ≠ 0) {steps adds : Nat}
    (hc : BloomCounted bh steps adds) (ops : List BloomCall) :
    Total (Prog.calls (BloomCall.call lhiHashmap) ops bh) w fun r _ =>
      (∃ S', BloomRep lhiHashmap m k r.2 S') ∧
      BloomCounted r.2 (steps + k.toNat * (addedKeys ops).length)
        (adds + (addedKeys ops).length) := by
  induction ops generalizing bh S w steps adds with
  | nil => exact ⟨⟨S, h⟩, hc⟩
  | cons c ops ih =>
    refine Lib.runs_calls_cons ?_
    cases c with
    | add key =>
      have hadds : adds + 1 + (addedKeys ops).length =
          adds + (addedKeys (.add key :: ops)).length := by
        rw [addedKeys, List.length_cons]
        omega
      have hsteps : steps + k.toNat + k.toNat * (addedKeys ops).length =
          steps + k.toNat * (addedKeys (.add key :: ops)).length := by
        rw [addedKeys, List.length_cons, Nat.mul_succ]
        omega
      refine runs_bind.mpr ?_
      unfold hiBloomFilterAdd
      rw [show bh.k.toNat = k.toNat from congrArg _ h.hashes]
      refine (h.counted.runs_bloomAddSteps hm key hc.add le_rfl).imp fun bh' w₁ h₁ => ?_
      obtain ⟨⟨S', h'⟩, hc'⟩ := h₁
      rw [← hadds, ← hsteps]
      exact ih h' hc'
    | check key =>
      refine runs_bind.mpr ((h.runs_hiBloomFilterCheck (.inl hm) key).imp fun ret w₁ _ => ?_)
      exact ih h hc

end BloomRep

theorem runs_hiBloomInitMk_counted :
    Runs E (hiBloomInitMk lhiHashmap m k) w fun r _ => ∀ bh, r = .ok bh → BloomCounted bh 0 0 := by
  unfold hiBloomInitMk
  refine runs_ite.mpr ⟨fun _ => by simp, fun _ => ?_⟩
  refine runs_ite.mpr ⟨fun _ => by simp, fun _ => ?_⟩
  refine runs_bind.mpr (runs_xallocAlign (fun _ _ _ _ _ _ => by simp) fun _ w₁ _ _ _ => ?_)
  refine runs_bind.mpr (runs_xallocAlign (fun _ _ _ _ _ _ => by simp) fun _ w₂ _ _ _ => ?_)
  simp only [runs_pure, Except.ok.injEq, forall_eq']
  exact ⟨by simp [Nat.ModEq], rfl⟩

/-- The bits that are set and the collisions are together as many as the steps of the additions, up
to the range of the counters: a step of an addition sets one more bit or counts one more collision,
also where functions of one key give the same position. -/
theorem bloom_steps_counted {w₀ : World} (hm : m ≠ 0)
    (hcreate : (hiBloomInitMk lhiHashmap m k).run w = .ok (.ok bh, w₀)) (ops : List BloomCall) :
    Total (Prog.calls (BloomCall.call lhiHashmap) ops bh) w₀ fun r w₁ =>
      bitCount r.2.filterMap.cells + r.2.bitCollision.toNat ≡
        k.toNat * (addedKeys ops).length [MOD 2 ^ 32] ∧
      r.2.n.toNat = (addedKeys ops).length % 2 ^ 32 ∧
      ∀ (key : Key), ∀ iter < k.toNat,
        Total (Prog.forUp (bloomAddStep lhiHashmap key.bytes key.keylen) iter 0
            { r.2 with n := r.2.n + 1 }) w₁ fun bh₁ w₂ =>
          Total (bloomAddStep lhiHashmap key.bytes key.keylen iter bh₁) w₂ fun bh₂ _ =>
            CoversOne bh₁ bh₂ := by
  have hnew : BloomRep lhiHashmap m k bh ∅ :=
    (runs_hiBloomInitMk (E := fun _ => True)).of_run hcreate bh rfl
  have hzero : BloomCounted bh 0 0 :=
    (runs_hiBloomInitMk_counted (E := fun _ => True)).of_run hcreate bh rfl
  refine (hnew.runs_calls_counted hm hzero ops).imp fun r w₁ h => ?_
  obtain ⟨⟨S, h⟩, hc⟩ := h
  rw [Nat.zero_add, Nat.zero_add] at hc
  refine ⟨hc.steps, hc.adds, fun key iter hiter => ?_⟩
  refine (h.counted.runs_bloomAddSteps hm key hc.add hiter.le).imp fun bh₁ w₂ h₁ => ?_
  obtain ⟨⟨S₁, h₁⟩, -⟩ := h₁
  obtain ⟨hash, hi⟩ := h₁.exists_hash hiter
  refine h₁.runs_bloomAddStep_eq hm hi ?_
  exact HiBloomHandle.coversOne_cover (h₁.length ▸ bloomPosition_lt hm)

/-- Both positions of both keys coincide: they set one bit and count three collisions. -/
theorem bloom_steps_counted_eight :
    ∃ bh w₀ r w₁, (hiBloomInitMk [fun _ len => len, fun _ len => len] 8 2).run
        (World.start fun _ _ => 0) = .ok (.ok bh, w₀) ∧
      (Prog.calls (BloomCall.call [fun _ len => len, fun _ len => len])
        [.add ⟨[7, 7, 7], by decide⟩, .add ⟨[1, 2, 3], by decide⟩] bh).run w₀ = .ok (r, w₁) ∧
      bitCount r.2.filterMap.cells + r.2.bitCollision.toNat ≡ 4 [MOD 2 ^ 32] ∧ r.2.n.toNat = 2 ∧
      bitCount r.2.filterMap.cells = 1 ∧ r.2.bitCollision = 3 := by
  obtain ⟨bh, w₀, r, w₁, hcreate, hcalls, hbits, hcollisions⟩ : ∃ bh w₀ r w₁,
      (hiBloomInitMk [fun _ len => len, fun _ len => len] 8 2).run (World.start fun _ _ => 0) =
        .ok (.ok bh, w₀) ∧
      (Prog.calls (BloomCall.call [fun _ len => len, fun _ len => len])
        [.add ⟨[7, 7, 7], by decide⟩, .add ⟨[1, 2, 3], by decide⟩] bh).run w₀ = .ok (r, w₁) ∧
      bitCount r.2.filterMap.cells = 1 ∧ r.2.bitCollision = 3 := ⟨_, _, _, _, rfl, rfl, rfl, rfl⟩
  obtain ⟨hsteps, hadds, -⟩ := (bloom_steps_counted (by decide) hcreate _).of_run hcalls
  exact ⟨bh, w₀, r, w₁, hcreate, hcalls, hsteps, hadds, hbits, hcollisions⟩

end Hashish
