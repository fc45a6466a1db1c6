import Hashish.RehashSuccess
import Mathlib.Algebra.Order.Floor.Semifield
import Mathlib.Data.Rat.Floor
import Mathlib.Tactic.Ring

/-!
# The load factor of a table that rehashes by itself

`do_rehash` doubles a table when its load exceeds the threshold. It divides the number of
objects by the size in integers, so that the load it sees is too small: with the threshold
of `hi_set_zero` a table of eight buckets is doubled at eight objects, not at seven.

* `Tidy.runs_hiInsert_absent`: what the insertion of an absent key does to the size.
* `load_kept_iff`: the load is kept exactly where the threshold does not separate it from
  the quotient.
-/

namespace Hashish

open Hashish.Lib

variable {δ : Type} {w : World} {h : HiHandle δ} {bs : List (List (Stored δ))}

/-- `no_objects / table_size`, exactly. -/
def HiHandle.load (h : HiHandle δ) : ℚ := (h.noObjects.toNat : ℚ) / h.tableSize.toNat

/-- The quotient in whole numbers, converted to `float`. -/
def HiHandle.wholeLoad (h : HiHandle δ) : ℚ := floatOfUInt32 (h.noObjects / h.tableSize)

theorem HiHandle.due_iff {t : ℚ} (hauto : h.rehashAuto ≠ 0) (ht : h.rehashThreshold = .fin t) :
    h.Due ↔ t < h.wholeLoad := by
  rw [HiHandle.Due, ht, HiHandle.wholeLoad]
  simp only [CFloat.below, decide_eq_true_eq]
  exact and_iff_right hauto

/-! ## Which thresholds are seen -/

/-- Rounding `down * u + rest` to a multiple of `u`, ties to even, gives at least `m * u` when less than
half of `u` is missing. -/
theorem le_round_iff {u rest m : Nat} (down : Nat) (hu : 0 < u) (hrest : rest < u) (hm : 0 < m) :
    (m ≤ down + if 2 * rest < u ∨ (2 * rest = u ∧ down % 2 = 0) then 0 else 1) ↔
      (2 * m - 1) * u < 2 * (down * u + rest) ∨
      ((2 * m - 1) * u = 2 * (down * u + rest) ∧ m % 2 = 0) := by
  obtain ⟨m, rfl⟩ := Nat.exists_eq_add_one_of_ne_zero hm.ne'
  rw [show 2 * (m + 1) - 1 = 2 * m + 1 by omega, show (2 * m + 1) * u = 2 * (m * u) + u by ring]
  rcases Nat.lt_trichotomy m down with hlt | rfl | hgt
  · have hmul : (m + 1) * u ≤ down * u := Nat.mul_le_mul_right u hlt
    rw [Nat.add_mul] at hmul
    exact iff_of_true (Nat.le_trans hlt (Nat.le_add_right _ _)) (.inl (by omega))
  · split <;> omega
  · have hmul : (down + 1) * u ≤ m * u := Nat.mul_le_mul_right u hgt
    rw [Nat.add_mul] at hmul
    refine iff_of_false (fun hle => ?_) (by omega)
    split at hle <;> omega

/-- Of `n` the conversion to `float` keeps 24 bits: the last of them counts `lastPlace n`. -/
def lastPlace (n : Nat) : Nat := 2 ^ (n.log2 - 23)

/-- The number `n` is nearer to the first multiple of its last place above `t` than to those below. -/
def RoundsAbove (t : ℚ) (n : Nat) : Prop :=
  (2 * (⌊t / lastPlace n⌋₊ + 1) - 1) * lastPlace n < 2 * n ∨
  ((2 * (⌊t / lastPlace n⌋₊ + 1) - 1) * lastPlace n = 2 * n ∧ (⌊t / lastPlace n⌋₊ + 1) % 2 = 0)

theorem lt_floatOfUInt32 {t : ℚ} (ht₀ : 0 ≤ t) (n : UInt32) :
    t < floatOfUInt32 n ↔ RoundsAbove t n.toNat := by
  have hu : 0 < lastPlace n.toNat := Nat.two_pow_pos _
  have hfloat : floatOfUInt32 n = ((n.toNat / lastPlace n.toNat +
      if 2 * (n.toNat % lastPlace n.toNat) < lastPlace n.toNat ∨
        (2 * (n.toNat % lastPlace n.toNat) = lastPlace n.toNat ∧
          n.toNat / lastPlace n.toNat % 2 = 0) then 0 else 1 : Nat) : ℚ) * lastPlace n.toNat := by
    rw [← Nat.cast_mul]
    by_cases hdown : 2 * (n.toNat % lastPlace n.toNat) < lastPlace n.toNat ∨
        (2 * (n.toNat % lastPlace n.toNat) = lastPlace n.toNat ∧ n.toNat / lastPlace n.toNat % 2 = 0)
    · rw [if_pos hdown, Nat.add_zero]
      exact if_pos hdown
    · rw [if_neg hdown]
      exact if_neg hdown
  have hround := le_round_iff (n.toNat / lastPlace n.toNat) hu (Nat.mod_lt n.toNat hu)
    (Nat.succ_pos ⌊t / lastPlace n.toNat⌋₊)
  rw [Nat.div_add_mod'] at hround
  rw [hfloat, ← div_lt_iff₀ (Nat.cast_pos.mpr hu), RoundsAbove, ← hround, Nat.succ_le_iff]
  exact (Nat.floor_lt (div_nonneg ht₀ (Nat.cast_nonneg _))).symm

/-- Below `2 ^ 24` the conversion is exact. -/
theorem roundsAbove_small {t : ℚ} (ht₀ : 0 ≤ t) (ht : t < 2 ^ 24) (n : Nat) :
    RoundsAbove t n ↔ ⌊t⌋₊ + 1 ≤ n := by
  by_cases hn : n < 2 ^ 24
  · have hone : lastPlace n = 1 := by
      have hlog : n.log2 ≤ 23 := by
        by_cases h₀ : n = 0
        · rw [h₀, Nat.log2_zero]
          exact Nat.zero_le _
        · exact Nat.lt_succ_iff.mp ((Nat.log2_lt h₀).mpr hn)
      rw [lastPlace, Nat.sub_eq_zero_of_le hlog, Nat.pow_zero]
    rw [RoundsAbove, hone, Nat.cast_one, div_one]
    omega
  · have h₀ : n ≠ 0 := by omega
    have hlog : 24 ≤ n.log2 := (Nat.le_log2 h₀).mpr (Nat.le_of_not_lt hn)
    have hplace : 2 ^ 23 * lastPlace n = 2 ^ n.log2 := by
      rw [lastPlace, ← Nat.pow_add, Nat.add_sub_cancel' (by omega)]
    have hu : 0 < lastPlace n := Nat.two_pow_pos _
    have hself : 2 ^ n.log2 ≤ n := Nat.log2_self_le h₀
    have hfloor : ⌊t / lastPlace n⌋₊ < 2 ^ 23 := by
      rw [Nat.floor_lt (div_nonneg ht₀ (Nat.cast_nonneg _)), div_lt_iff₀ (Nat.cast_pos.mpr hu),
        ← Nat.cast_mul, hplace]
      refine ht.trans_le ?_
      exact_mod_cast Nat.pow_le_pow_right (by decide : 0 < 2) hlog
    have hmul := Nat.mul_le_mul_right (lastPlace n) (show 2 * (⌊t / lastPlace n⌋₊ + 1) - 1 ≤
      2 * 2 ^ 23 - 1 by omega)
    have htop : (2 * 2 ^ 23 - 1) * lastPlace n < 2 * n := by
      rw [Nat.sub_mul, Nat.mul_assoc, hplace]
      omega
    have hsmall : ⌊t⌋₊ < 2 ^ 24 := (Nat.floor_lt ht₀).mpr (by exact_mod_cast ht)
    exact iff_of_true (.inl (Nat.lt_of_le_of_lt hmul htop)) (by omega)

/-- The table is doubled when its load exceeds the threshold, and only then. Below `2 ^ 24` the
threshold must not lie between the load and the whole number below it; from there on the rounding
counts as well. -/
def HiHandle.SeesLoad (h : HiHandle δ) (t : ℚ) : Prop :=
  if t < 2 ^ 24 then h.load ≤ t ∨ (⌊t⌋₊ : ℚ) + 1 ≤ h.load
  else t < h.load ↔ RoundsAbove t (h.noObjects.toNat / h.tableSize.toNat)

theorem HiHandle.seesLoad_iff {t : ℚ} (ht₀ : 0 ≤ t) :
    (t < h.load ↔ t < h.wholeLoad) ↔ h.SeesLoad t := by
  rw [HiHandle.wholeLoad, lt_floatOfUInt32 ht₀, UInt32.toNat_div, HiHandle.SeesLoad]
  split
  · rename_i ht
    rw [roundsAbove_small ht₀ ht, ← Nat.floor_div_eq_div (K := ℚ), ← HiHandle.load]
    have hload : 0 ≤ h.load := div_nonneg (Nat.cast_nonneg _) (Nat.cast_nonneg _)
    have hfloor : ⌊t⌋₊ + 1 ≤ ⌊h.load⌋₊ ↔ (⌊t⌋₊ : ℚ) + 1 ≤ h.load := by
      rw [Nat.le_floor_iff hload]
      push_cast
      rfl
    rw [hfloor]
    refine ⟨fun hiff => ?_, fun hor => ⟨fun hlt => hor.resolve_left (not_le.mpr hlt), fun hle => ?_⟩⟩
    · rcases le_or_gt h.load t with hle | hlt
      · exact .inl hle
      · exact .inr (hiff.mp hlt)
    · exact (Nat.lt_floor_add_one t).trans_le hle
  · rfl

/-- There is an entry when a load above zero is seen. -/
theorem HiHandle.noObjects_ne_zero {t : ℚ} (ht₀ : 0 ≤ t) (hload : t < h.wholeLoad) :
    h.noObjects ≠ 0 := by
  intro hzero
  rw [HiHandle.wholeLoad, hzero, UInt32.zero_div] at hload
  exact absurd (ht₀.trans_lt hload) (by decide +kernel)

namespace Engine

variable {G : Engine δ} {f : HashFunc} {cmp : KeyCmp} {k : Key} {d : δ}

theorem Tidy.runs_engineInsert_absent (ht : G.Tidy f cmp h w bs) (had : G.Admits f cmp fun _ => True)
    (hst : ∀ {h w bs}, G.covers h.collEng → G.Rep h w bs → Stores h w bs)
    (hf : cmp.find bs.flatten k = none) (hw : w.AllocsSucceed) :
    Total (engineInsert h k.bytes k.keylen d) w fun r _ => r.1 = success ∧
      r.2.tableSize = h.tableSize ∧ r.2.noObjects = h.noObjects + 1 := by
  rw [← ht.keyCmp] at hf
  refine (G.runs_engineInsert ht.covered ht.rep ht.tableSize (ht.admits had _) (.inr hf)).imp ?_
  rintro r w' (⟨hfound, -⟩ | ⟨-, hret, hset, x, bs', -, hrep, hperm, -⟩ | ⟨-, -, -, hfail, -⟩)
  · exact (hfound hf).elim
  · have hcovered : G.covers r.2.collEng := by
      rw [show r.2.collEng = h.collEng from (congrArg UserSettings.collEng hset :)]
      exact ht.covered
    refine ⟨hret, (congrArg UserSettings.tableSize hset :), ?_⟩
    rw [(hst hcovered hrep).count, (hst ht.covered ht.rep).count, hperm.length_eq, List.length_cons,
      UInt32.ofNat_add]
    rfl
  · exact (hfail.not_allocsSucceed hw).elim

/-- The insertion of an absent key doubles the table first if that is due. -/
theorem Tidy.runs_hiInsert_absent {F : Fault → Prop} (ht : G.Tidy f cmp h w bs)
    (heq : Equivalence cmp.same) (had : G.Admits f cmp fun _ => True)
    (hst : ∀ {h w bs}, G.covers h.collEng → G.Rep h w bs → Stores h w bs)
    (hf : cmp.find bs.flatten k = none) (hw : w.AllocsSucceed) (hsize : h.tableSize * 2 ≠ 0)
    (hcount : h.Due → h.noObjects ≠ 0)
    (hit : h.Due → Iterable F G.toArray h w (G.Snap h bs) (fun _ => False) bs) :
    Runs F (hiInsert h k.bytes k.keylen d) w fun r _ => r.1 = success ∧
      (h.Due → r.2.tableSize = h.tableSize * 2 ∧ ListsFit h.collEng bs) ∧
      (¬ h.Due → r.2.tableSize = h.tableSize ∧ r.2.noObjects = h.noObjects + 1) := by
  unfold hiInsert hiInsertWith
  refine Runs.bind (Runs.of_total (G.lookup ht.covered ht.rep ht.tableSize (ht.admits had _)))
    fun found w₁ hw₁ h₁ => ?_
  have ht₁ : G.Tidy f cmp h w₁ bs := { ht with rep := G.mono ht.rep hw₁ }
  have hw' := hw.mono hw₁
  rw [ht.keyCmp] at h₁
  obtain ⟨-, hfound⟩ | ⟨hne, -⟩ := h₁
  · exact (hfound hf).elim
  rw [if_neg hne]
  refine runs_bind.mpr (runs_doRehash ht.tableSize (fun hdue => ?_) fun hnot => ?_)
  · have hstores := hst ht₁.covered ht₁.rep
    have hcount' := hstores.exists_counted (hcount hdue)
    refine ((ht₁.runs_hiRehash_success heq had ((hit hdue).mono hw₁) hcount' hw' hsize).and_returned
      hstores.canRehash_of_success).and_grows.imp ?_
    rintro ⟨ret, h₂⟩ w₂ ⟨hw₂, ⟨hret, hsize₂, bs₂, ht₂, hwithin⟩, hcan⟩
    refine Runs.of_total ((ht₂.runs_engineInsert_absent had hst (hwithin.find_none hf)
      (hw'.mono hw₂)).imp fun r w₃ h₃ => ?_)
    exact ⟨h₃.1, fun _ => ⟨h₃.2.1.trans hsize₂, (hcan hret).fits⟩, fun hnot => (hnot hdue).elim⟩
  · refine Runs.of_total ((ht₁.runs_engineInsert_absent had hst hf hw').imp fun r w₂ h₂ => ?_)
    exact ⟨h₂.1, fun hdue => (hnot hdue).elim, fun _ => h₂.2⟩

end Engine

/-- The insertion doubles the table iff the load exceeds the threshold. After it the load without the
new entry does not exceed the threshold, or the table was doubled. -/
def HiHandle.KeepsLoad (h : HiHandle δ) (w : World) (t : ℚ) (k : Key) (d : δ) : Prop :=
  Total (hiInsert h k.bytes k.keylen d) w fun r _ =>
    (r.2.tableSize = h.tableSize * 2 ↔ t < h.load) ∧
    (r.1 = success → ((r.2.noObjects - 1).toNat : ℚ) / r.2.tableSize.toNat ≤ t ∨
      r.2.tableSize = h.tableSize * 2)

/-- An insertion of an absent key keeps the load at the threshold iff the load is at most the threshold
or reaches the next whole number, and the lists of a table to be doubled are not longer than their
counters tell. -/
theorem load_kept_iff {s : HiInitSet} {f : HashFunc} {cmp : KeyCmp} (hs : PlainSettings s f cmp)
    (hk : KeyContract f cmp s.collEng) (hr : Reached s h w) (hw : w.AllocsSucceed) {t : ℚ}
    (ht₀ : 0 ≤ t) (hauto : h.rehashAuto ≠ 0) (ht : h.rehashThreshold = .fin t)
    (hsize : h.tableSize.toNat * 2 < 2 ^ 32) :
    ∃ bs, Stores h w bs ∧ ∀ (k : Key) (d : δ), cmp.find bs.flatten k = none →
      (h.KeepsLoad w t k d ↔ h.SeesLoad t ∧ (t < h.load → ListsFit h.collEng bs)) := by
  obtain ⟨G, bs, htidy, had, hst, hit⟩ := hr.tidy hs hk
  refine ⟨bs, hst htidy.covered htidy.rep, fun k d hf => ?_⟩
  have hdue := HiHandle.due_iff hauto ht
  have hcount : h.Due → h.noObjects ≠ 0 := fun hd => HiHandle.noObjects_ne_zero ht₀ (hdue.mp hd)
  have hne : h.tableSize.toNat ≠ 0 := fun h₀ => htidy.tableSize (UInt32.toNat_inj.mp h₀)
  have htwice : (h.tableSize * 2).toNat = h.tableSize.toNat * 2 := by
    rw [UInt32.toNat_mul]
    exact Nat.mod_eq_of_lt hsize
  have hdouble : h.tableSize * 2 ≠ h.tableSize := fun he => by
    rw [he] at htwice
    omega
  have hsize₂ : h.tableSize * 2 ≠ 0 := fun he => by
    rw [he] at htwice
    exact hne ((Nat.mul_eq_zero.mp htwice.symm).resolve_right (by decide))
  constructor
  · intro hkeeps
    obtain ⟨r, w', hrun, hiff, -⟩ := total_iff.mp hkeeps
    have hit' : h.Due → Iterable (fun _ => True) G.toArray h w (G.Snap h bs) (fun _ => False) bs :=
      fun _ => G.iterable htidy.covered htidy.rep (fun _ _ _ hs => hs) fun _ _ _ _ => trivial
    obtain ⟨-, hyes, hno⟩ := (htidy.runs_hiInsert_absent (d := d) hk.equivalence had hst hf hw hsize₂
      hcount hit').of_run hrun
    have hseen : r.2.tableSize = h.tableSize * 2 ↔ h.Due := by
      by_cases hd : h.Due
      · exact iff_of_true (hyes hd).1 hd
      · exact iff_of_false (fun he => hdouble (he.symm.trans (hno hd).1)) hd
    have hsees : t < h.load ↔ t < h.wholeLoad := hiff.symm.trans (hseen.trans hdue)
    exact ⟨(HiHandle.seesLoad_iff ht₀).mp hsees, fun hlt => (hyes (hdue.mpr (hsees.mp hlt))).2⟩
  · rintro ⟨hsees, hfit⟩
    have hiff := (HiHandle.seesLoad_iff ht₀).mpr hsees
    refine (htidy.runs_hiInsert_absent (d := d) hk.equivalence had hst hf hw hsize₂ hcount
      fun hd => hit (hfit (hiff.mpr (hdue.mp hd)))).imp ?_
    rintro r w' ⟨-, hyes, hno⟩
    rw [hiff, ← hdue]
    by_cases hd : h.Due
    · exact ⟨iff_of_true (hyes hd).1 hd, fun _ => .inr (hyes hd).1⟩
    · obtain ⟨hsame, hcount⟩ := hno hd
      refine ⟨iff_of_false (fun he => hdouble (he.symm.trans hsame)) hd, fun _ => .inl ?_⟩
      rw [hsame, hcount, UInt32.add_sub_cancel]
      exact not_lt.mp fun hlt => hd (hdue.mpr (hiff.mp hlt))

/-- A table that rehashes by itself, with the threshold of `hi_set_zero`. -/
def autoList (n : UInt32) : HiInitSet := { byteList with tableSize := n, rehashAuto := 1 }

theorem autoList_settings {n : UInt32} (hn : n ≠ 0) :
    PlainSettings (autoList n) ⟨0, lhiHashDumb1⟩ cmpBytes :=
  ⟨.inl (.inl rfl), hn, rfl, rfl⟩

/-- A session that inserts the keys, and one more insertion: the counters and sizes before and after
it, the settings of the rehash, and the number of requests to the allocator. -/
def autoRun (n : UInt32) (keys : List Key) (k : Key) :
    Option (List UInt32 × Int × CFloat × Nat × Int) :=
  match (tableSession (autoList n) (keys.map fun k => .map (.insert k ()))).run
      (World.start fun _ _ => 0) with
  | .ok (.ok (_, h), w) =>
    match (hiInsert h k.bytes k.keylen ()).run w with
    | .ok ((ret, h'), _) => some ([h.noObjects, h.tableSize, h'.noObjects, h'.tableSize],
        h.rehashAuto, h.rehashThreshold, w.requests, ret)
    | .error _ => none
  | _ => none

theorem exists_of_autoRun {n n₁ n₂ n₃ n₄ : UInt32} {keys : List Key} {k : Key} {auto ret : Int}
    {t : CFloat} {reqs : Nat} (hrun : autoRun n keys k = some ([n₁, n₂, n₃, n₄], auto, t, reqs, ret)) :
    ∃ (h : HiHandle Unit) (w : World) (h' : HiHandle Unit) (w' : World),
      Reached (autoList n) h w ∧ w.AllocsSucceed ∧
      (hiInsert h k.bytes k.keylen ()).run w = .ok ((ret, h'), w') ∧
      h.noObjects = n₁ ∧ h.tableSize = n₂ ∧ h'.noObjects = n₃ ∧ h'.tableSize = n₄ ∧
      h.rehashAuto = auto ∧ h.rehashThreshold = t ∧ w.requests = reqs := by
  unfold autoRun at hrun
  split at hrun
  · rename_i rs h w hsession
    split at hrun
    · rename_i ret h' w' hinsert
      cases hrun
      exact ⟨h, w, h', w', .of_session hsession,
        (World.start_allocsSucceed _).mono ((tableSession _ _).grows hsession), hinsert,
        rfl, rfl, rfl, rfl, rfl, rfl, rfl⟩
    · cases hrun
  · cases hrun

/-- Two entries in one of two buckets: the table is doubled. -/
theorem load_kept_iff_two : ∃ (h : HiHandle Unit) (w : World), Reached (autoList 2) h w ∧
    h.load = 1 ∧ ∃ bs, Stores h w bs ∧ ∀ (k : Key) (d : Unit),
      KeyCmp.find cmpBytes bs.flatten k = none → h.KeepsLoad w (3 / 4) k d := by
  have hrun : autoRun 2 [⟨[1, 0], by decide⟩, ⟨[2, 0], by decide⟩] ⟨[3, 0], by decide⟩ =
      some ([2, 2, 3, 4], 1, .fin (3 / 4), 9, success) := by decide +kernel
  obtain ⟨h, w, h', w', hreach, hsucc, -, hcount, hsize, -, -, hauto, ht, hreq⟩ :=
    exists_of_autoRun hrun
  have hload : h.load = 1 := by
    rw [HiHandle.load, hcount, hsize]
    decide +kernel
  obtain ⟨bs, hst, hiff⟩ := load_kept_iff (autoList_settings (by decide)) byteList_contract hreach
    hsucc (t := 3 / 4) (by decide +kernel) (by rw [hauto]; decide) ht (by rw [hsize]; decide)
  refine ⟨h, w, hreach, hload, bs, hst, fun k d hf => (hiff k d hf).mpr ⟨?_, fun _ _ l hl hge => ?_⟩⟩
  · rw [HiHandle.SeesLoad, if_pos (by decide +kernel), hload]
    right
    rw [Nat.floor_eq_zero.mpr (by decide +kernel)]
    decide +kernel
  · have hle := (hge.trans (hst.length_le hl)).trans_eq hreq
    exact absurd hle (by decide)

/-- Four entries in five buckets are more than three quarters, and no reason to double the table. -/
theorem full_table_not_doubled :
    ∃ (h : HiHandle Unit) (w : World) (h' : HiHandle Unit) (w' : World),
      Reached (autoList 5) h w ∧ w.AllocsSucceed ∧ h.rehashAuto = 1 ∧
      h.rehashThreshold = .fin (3 / 4) ∧ 3 / 4 < h.load ∧
      (hiInsert h [5, 0] 2 ()).run w = .ok ((success, h'), w') ∧ h'.tableSize = h.tableSize ∧
      3 / 4 < ((h'.noObjects - 1).toNat : ℚ) / h'.tableSize.toNat ∧
      ¬ h.KeepsLoad w (3 / 4) ⟨[5, 0], by decide⟩ () := by
  have hrun : autoRun 5 [⟨[1, 0], by decide⟩, ⟨[2, 0], by decide⟩, ⟨[3, 0], by decide⟩,
      ⟨[4, 0], by decide⟩] ⟨[5, 0], by decide⟩ =
        some ([4, 5, 5, 5], 1, .fin (3 / 4), 13, success) := by decide +kernel
  obtain ⟨h, w, h', w', hreach, hsucc, hinsert, hcount, hsize, hcount', hsize', hauto, ht, -⟩ :=
    exists_of_autoRun hrun
  have hload : 3 / 4 < h.load := by
    rw [HiHandle.load, hcount, hsize]
    decide +kernel
  refine ⟨h, w, h', w', hreach, hsucc, hauto, ht, hload, hinsert, hsize'.trans hsize.symm, ?_,
    fun hkeeps => ?_⟩
  · rw [hsize', hcount']
    decide +kernel
  · have hdoubled := (hkeeps.of_run hinsert).1.mpr hload
    rw [hsize, hsize'] at hdoubled
    exact absurd hdoubled (by decide)

end Hashish
