import Hashish.RbtreeCorrectness

/-!
# Trees with 32-bit integer keys

The 32-bit compare functions subtract with wrap-around, so their sign is not an order
on all numbers, and a tree may lose a key. It is an order on the keys of a window of
`2 ^ 31` consecutive numbers, and on no larger set.

* `rbtree_loses_key_uint32T`: a key that is stored but not found.
* `rbtree_refines_map_in_window`: while the keys that meet lie in a window, the tree
  engine is right.
-/

namespace Hashish

open Hashish.Lib

variable {δ : Type} {cmp : KeyCmp} {S : Key → Prop}

/-! ## Windows -/

/-- The number of a four-byte key. -/
def Key.number (k : Key) : BitVec 32 := BitVec.ofNat 32 (readInt 4 k.bytes)

theorem readInt_lt (n : Nat) (key : Bytes) : readInt n key < 256 ^ n := by
  induction n generalizing key with
  | zero => simp [readInt]
  | succ n ih =>
    cases key with
    | nil => simp [readInt]
    | cons b key =>
      have hb : b.toNat < 256 := b.toNat_lt
      have := ih key
      simp only [readInt, List.take_succ_cons, List.foldr_cons, Nat.pow_succ] at this ⊢
      omega

theorem readInt_inj {n : Nat} {key key' : Bytes} (h : key.length = n) (h' : key'.length = n)
    (he : readInt n key = readInt n key') : key = key' := by
  induction n generalizing key key' with
  | zero => rw [List.length_eq_zero_iff.mp h, List.length_eq_zero_iff.mp h']
  | succ n ih =>
    obtain ⟨b, key, rfl⟩ := List.exists_cons_of_length_eq_add_one h
    obtain ⟨b', key', rfl⟩ := List.exists_cons_of_length_eq_add_one h'
    have hb : b.toNat < 256 := b.toNat_lt
    have hb' : b'.toNat < 256 := b'.toNat_lt
    simp only [readInt, List.take_succ_cons, List.foldr_cons] at he
    have hrest : readInt n key = readInt n key' := by
      simp only [readInt]
      omega
    have hhead : b.toNat = b'.toNat := by
      simp only [readInt] at hrest
      omega
    rw [ih (by simpa using h) (by simpa using h') hrest, UInt8.toNat_inj.mp hhead]

/-- Keys of four bytes with the same number are the same key. -/
theorem Key.number_inj {k k' : Key} (h : k.bytes.length = 4) (h' : k'.bytes.length = 4)
    (he : k.number = k'.number) : k = k' := by
  have hn := congrArg BitVec.toNat he
  have hlt := readInt_lt 4 k.bytes
  have hlt' := readInt_lt 4 k'.bytes
  simp only [number, BitVec.toNat_ofNat] at hn
  rw [Nat.mod_eq_of_lt (by omega), Nat.mod_eq_of_lt (by omega)] at hn
  cases k
  cases k'
  simp only [Key.mk.injEq]
  exact readInt_inj h h' hn

theorem same_iff_number {k k' : Key} : KeyCmp.same hiCmpUint32T k k' ↔ k.number = k'.number := by
  rw [KeyCmp.same, hiCmpUint32T]
  constructor
  · intro h
    have := BitVec.eq_of_toInt_eq (h.trans BitVec.toInt_zero.symm)
    simp only [Key.number]
    bv_omega
  · intro h
    simp only [Key.number] at h
    simp [h]

/-- In each finite set of keys that the compare function orders there is a smallest one. -/
theorem OrderOn.exists_least (ho : OrderOn cmp S) {l : List Key} (hl : ∀ k ∈ l, S k) (hne : l ≠ []) :
    ∃ m ∈ l, ∀ k ∈ l, 0 ≤ cmp k.bytes m.bytes := by
  induction l with
  | nil => exact (hne rfl).elim
  | cons a l ih =>
    have ha : S a := hl a List.mem_cons_self
    have hself : 0 ≤ cmp a.bytes a.bytes := by
      have := ho.antisymm ha ha
      omega
    by_cases hnil : l = []
    · subst hnil
      exact ⟨a, List.mem_cons_self, by simpa using hself⟩
    obtain ⟨m, hm, hmin⟩ := ih (fun k hk => hl k (List.mem_cons_of_mem _ hk)) hnil
    have hSm : S m := hl m (List.mem_cons_of_mem _ hm)
    by_cases hma : 0 ≤ cmp m.bytes a.bytes
    · refine ⟨a, List.mem_cons_self, fun k hk => ?_⟩
      rcases List.mem_cons.mp hk with rfl | hk
      · exact hself
      · exact ho.trans (hl k (List.mem_cons_of_mem _ hk)) hSm ha (hmin k hk) hma
    · refine ⟨m, List.mem_cons_of_mem _ hm, fun k hk => ?_⟩
      rcases List.mem_cons.mp hk with rfl | hk
      · exact ((ho.antisymm hSm ha).mp (by omega)).le
      · exact hmin k hk

/-- No larger finite set is ordered: the condition of `orderOn_hiCmpUint32T` is necessary. -/
theorem inWindow_of_orderOn {l : List Key} (ho : OrderOn hiCmpUint32T (· ∈ l)) :
    InWindow (· ∈ l) := by
  by_cases hne : l = []
  · subst hne
    exact ⟨0, by simp⟩
  obtain ⟨m, -, hmin⟩ := ho.exists_least (fun _ hk => hk) hne
  refine ⟨m.number, fun k hk => ?_⟩
  have h₀ : 0 ≤ (k.number - m.number).toInt := hmin k hk
  rw [BitVec.toInt_eq_toNat_cond] at h₀
  have hlt : (k.number - m.number).toNat < 2 ^ 32 := BitVec.isLt _
  show (k.number - m.number).toNat < 2 ^ 31
  split at h₀ <;> omega

/-! ## The tree engine -/

/-- The condition on a call: its key and the stored keys are four-byte numbers in a window, and if it
rehashes, the doubled size of the table is not zero, or there is nothing to move. -/
def WindowOk (u : UserSettings) (m : KeyMap u.keyCmp δ) (h : HiHandle δ) (_w : World)
    (op : MapOp δ) : Prop :=
  (∀ k, mapKeys m op.key k → k.bytes.length = 4) ∧ InWindow (mapKeys m op.key) ∧
    (u.rehashAuto ≠ 0 → h.Due → h.tableSize * 2 ≠ 0 ∨ m.size = 0)

/-- Different keys of a window have different offsets, so there are at most `2 ^ 31`. -/
theorem size_le_of_inWindow {m : KeyMap hiCmpUint32T δ} {k : Key} (hw : InWindow (mapKeys m k)) :
    m.size ≤ 2 ^ 31 := by
  obtain ⟨base, hb⟩ := hw
  have hnd : (m.pairs.map fun p => (p.1.number - base).toNat).Nodup := by
    refine List.pairwise_map.mpr (m.distinct.imp fun {p q} hpq he => hpq (same_iff_number.mpr ?_))
    have := BitVec.eq_of_toNat_eq he
    bv_omega
  have hsub : ∀ n ∈ m.pairs.map fun p => (p.1.number - base).toNat, n ∈ List.range (2 ^ 31) := by
    intro n hn
    obtain ⟨p, hp, rfl⟩ := List.mem_map.mp hn
    exact List.mem_range.mpr (hb p.1 (.inr ⟨p, hp, rfl⟩))
  have hlen := (List.subperm_of_subset hnd hsub).length_le
  rw [List.length_map, List.length_range] at hlen
  exact hlen

theorem WindowOk.callOk {u : UserSettings} (hcmp : u.keyCmp = hiCmpUint32T) {m : KeyMap u.keyCmp δ}
    {h : HiHandle δ} {w : World} {op : MapOp δ} (hok : WindowOk u m h w op) :
    Engine.CallOk (rbtreeEngine δ) u m h w op := by
  obtain ⟨hfour, hwin, hdue⟩ := hok
  obtain ⟨tableSize, collEng, rehashAuto, threshold, arraySize, hashFunc, hash2Func, keyCmp⟩ := u
  obtain rfl : keyCmp = hiCmpUint32T := hcmp
  refine ⟨⟨fun k k' hk hk' hs => ?_, orderOn_hiCmpUint32T hwin⟩, fun ha hd => ⟨hdue ha hd, ?_⟩⟩
  · rw [Key.number_inj (hfour k hk) (hfour k' hk') (same_iff_number.mp hs)]
  · exact Nat.lt_of_le_of_lt (size_le_of_inWindow hwin) (by decide)

theorem equivalence_same_uint32T : Equivalence (KeyCmp.same hiCmpUint32T) where
  refl _ := same_iff_number.mpr rfl
  symm h := same_iff_number.mpr (same_iff_number.mp h).symm
  trans h h' := same_iff_number.mpr ((same_iff_number.mp h).trans (same_iff_number.mp h'))

/-- The keys 0, 3 * 2 ^ 29 and 3 * 2 ^ 30 follow each other in a circle. Once the root 0 is removed,
3 * 2 ^ 30 takes its place, and the descent to 3 * 2 ^ 29 goes to the wrong side. -/
theorem rbtree_loses_key_uint32T :
    ((session { hiSetZero with
        tableSize := 1, hashFunc := some ⟨0, lhiHashDumb1⟩, keyCmp := some hiCmpUint32T,
        collEng := .rbtree }
      [.insert ⟨[0, 0, 0, 0], by decide⟩ "a", .insert ⟨[0, 0, 0, 0x60], by decide⟩ "b",
        .insert ⟨[0, 0, 0, 0xc0], by decide⟩ "c", .remove ⟨[0, 0, 0, 0], by decide⟩,
        .get ⟨[0, 0, 0, 0x60], by decide⟩]).run (World.start fun _ _ => 0)).map
      (fun r => r.1.map Prod.fst) =
    .ok (.ok [⟨success, none⟩, ⟨success, none⟩, ⟨success, none⟩, ⟨success, some "a"⟩,
      ⟨hiErrNokey, none⟩]) := by
  rfl

/-- While the keys that meet lie in a window, the tree engine answers as the map does: a key that was
inserted and not removed is found, refused when it is inserted again, and can be removed. -/
theorem rbtree_refines_map_in_window {s : HiInitSet} {u : UserSettings}
    (hs : lhiSetSanityCheck s = .ok u) (heng : u.collEng = .rbtree)
    (hcmp : u.keyCmp = hiCmpUint32T ∨ u.keyCmp = hiCmpInt32T) (w : World) :
    Total (hiCreate s : Prog (Except Int (HiHandle δ))) w fun r w₀ =>
      (r = .error hiErrSystem ∧ ¬ w.AllocsSucceed) ∨
      ∃ h, r = .ok h ∧ ∀ ops : List (MapOp δ),
        Meets MapOp.call (mapMachine u.keyCmp δ True) (WindowOk u) ops .empty h w₀ →
        Total (Prog.calls MapOp.call ops h) w₀ fun r _ =>
          ∃ m, Prog.Traces MapOp.call (fun w w' => mapMachine u.keyCmp δ (w.SomeFailed w'))
            .empty h w₀ ops r.1 m := by
  have hcmp' : u.keyCmp = hiCmpUint32T := hcmp.elim id fun h => h
  have heq : Equivalence u.keyCmp.same := hcmp' ▸ equivalence_same_uint32T
  refine ((rbtreeEngine δ).runs_hiCreate hs heng).imp ?_
  rintro r w₀ (herr | ⟨h, rfl, -, hrep⟩)
  · exact .inl herr
  refine .inr ⟨h, rfl, fun ops hmeets => ?_⟩
  have hok := hmeets.imp fun m h w op (hop : WindowOk u m h w op) => hop.callOk hcmp'
  exact ((rbtreeEngine δ).runs_mapOps heq ⟨_, hrep⟩ hok).imp fun r w₁ h₁ =>
    h₁.imp fun m h₂ => h₂.1

/-- The table of one tree of the next theorem. -/
def numberTree : HiInitSet :=
  { hiSetZero with
    tableSize := 1, hashFunc := some ⟨0, lhiHashDumb1⟩, keyCmp := some hiCmpUint32T,
    collEng := .rbtree }

/-- The keys 5, 6 and 2 ^ 32 - 1 lie in a window that begins at the last of them. -/
theorem rbtree_refines_map_in_window_three :
    ∃ h w₀, (hiCreate numberTree).run (World.start fun _ _ => 0) = .ok (.ok h, w₀) ∧
      Total (Prog.calls MapOp.call [.insert ⟨[5, 0, 0, 0], by decide⟩ "five",
          .insert ⟨[0xff, 0xff, 0xff, 0xff], by decide⟩ "last",
          .insert ⟨[6, 0, 0, 0], by decide⟩ "six", .remove ⟨[5, 0, 0, 0], by decide⟩,
          .get ⟨[0xff, 0xff, 0xff, 0xff], by decide⟩] h) w₀
        fun r _ => ∃ m, Prog.Traces MapOp.call
          (fun w w' => mapMachine hiCmpUint32T String (w.SomeFailed w')) .empty h w₀
          [.insert ⟨[5, 0, 0, 0], by decide⟩ "five",
            .insert ⟨[0xff, 0xff, 0xff, 0xff], by decide⟩ "last",
            .insert ⟨[6, 0, 0, 0], by decide⟩ "six", .remove ⟨[5, 0, 0, 0], by decide⟩,
            .get ⟨[0xff, 0xff, 0xff, 0xff], by decide⟩] r.1 m := by
  obtain ⟨h, w₀, hcreate, hmet⟩ : ∃ (h : HiHandle String) (w₀ : World),
      (hiCreate numberTree).run (World.start fun _ _ => 0) = .ok (.ok h, w₀) ∧
      Prog.met MapOp.call (mapMachine hiCmpUint32T String True)
        (fun m _ _ op => (op.key :: m.pairs.map Prod.fst).all fun k =>
          decide (k.bytes.length = 4 ∧
            (BitVec.ofNat 32 (readInt 4 k.bytes) - 0xffffffff#32).toNat < 2 ^ 31))
        [.insert ⟨[5, 0, 0, 0], by decide⟩ "five",
          .insert ⟨[0xff, 0xff, 0xff, 0xff], by decide⟩ "last",
          .insert ⟨[6, 0, 0, 0], by decide⟩ "six", .remove ⟨[5, 0, 0, 0], by decide⟩,
          .get ⟨[0xff, 0xff, 0xff, 0xff], by decide⟩] .empty h w₀ = true := ⟨_, _, rfl, rfl⟩
  obtain ⟨-, hfail⟩ | ⟨h', he, hruns⟩ := (rbtree_refines_map_in_window (s := numberTree)
    (u := ⟨1, .rbtree, 0, .fin (3 / 4), 0, ⟨0, lhiHashDumb1⟩, none, hiCmpUint32T⟩) rfl rfl
    (.inl rfl) _).of_run hcreate
  · exact (hfail (World.start_allocsSucceed _)).elim
  cases he
  refine ⟨h, w₀, hcreate, hruns _ (.of_met (fun m h w op _ hok => ?_) hmet)⟩
  have hkeys : ∀ k, mapKeys m op.key k → k.bytes.length = 4 ∧
      (BitVec.ofNat 32 (readInt 4 k.bytes) - 0xffffffff#32).toNat < 2 ^ 31 := by
    intro k hk
    refine of_decide_eq_true (List.all_eq_true.mp hok k ?_)
    rcases hk with rfl | ⟨p, hp, rfl⟩
    · exact List.mem_cons_self
    · exact List.mem_cons_of_mem _ (List.mem_map_of_mem hp)
  exact ⟨fun k hk => (hkeys k hk).1, ⟨_, fun k hk => (hkeys k hk).2⟩, fun ha => (ha rfl).elim⟩

end Hashish
