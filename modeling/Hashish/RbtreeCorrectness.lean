import Hashish.KeyOrder
import Hashish.RbtreeMap
import Hashish.Sessions

/-!
# The tree engine is correct

* `rbtree_session_refines_map`: when `key_cmp` orders the keys, `COLL_ENG_RBTREE` gives
  the answers of the abstract map, and each bucket is a search tree of its pairs.
* `rbtree_calls_keep_balance`: whatever `key_cmp` does, insertions and removals keep
  well-formed red-black trees.
-/

namespace Hashish

open Hashish.Lib

variable {δ : Type}

/-! ## The answers -/

/-- The tree engine answers every session as the map does. Each bucket is a search tree, and holds
the pairs of the map whose keys hash to it. -/
theorem rbtree_session_refines_map {s : HiInitSet} {f : HashFunc} {cmp : KeyCmp}
    (heng : s.collEng = .rbtree) (hsize : s.tableSize ≠ 0) (hauto : s.rehashAuto = 0)
    (hhash : s.hashFunc = some f) (hcmp : s.keyCmp = some cmp) (hord : OrderOn cmp fun _ => True)
    (hresp : ∀ k k', cmp.same k k' → f.hash k = f.hash k') {w : World} (hw : w.AllocsSucceed)
    (ops : List (MapOp δ)) :
    Total (session s ops) w fun r w' => ∃ h ts,
      r = .ok ((mapSession cmp ops).1, h) ∧
      RbRep h w' ts ∧
      (∀ b t, ts[b]? = some t → SearchTree cmp t ∧
        (t.toList.map fun x => x.pair).Perm
          ((mapSession cmp ops).2.pairs.filter fun p => h.toUserSettings.bucket p.1 = b)) ∧
      h.noObjects = UInt32.ofNat (mapSession cmp ops).2.size ∧
      ((mapSession cmp ops).2.size < 2 ^ 32 →
        h.noObjects.toNat = (mapSession cmp ops).2.size) := by
  have hcheck := lhiSetSanityCheck_plain hsize hhash hcmp (.inr (.inr heng))
  refine ((rbtreeEngine δ).runs_session hcheck heng hauto hord.equivalence
    ⟨fun k k' _ _ => hresp k k', hord⟩ hw ops).imp ?_
  rintro r w' ⟨h, bs, rfl, hrep⟩
  obtain ⟨ts, hr, hs, rfl⟩ := hrep.rep
  have hkc : h.keyCmp = cmp := (congrArg UserSettings.keyCmp hrep.settings :)
  have hcount : h.noObjects = UInt32.ofNat (mapSession cmp ops).2.size := by
    rw [(rbtreeEngine δ).count hrep.rep, hrep.holds.size]
  refine ⟨h, ts, rfl, hr, fun b t hb => ⟨?_, ?_⟩, hcount, fun hlt => ?_⟩
  · have hst : Sorted cmp t := hkc ▸ hs t (List.mem_of_getElem? hb)
    exact hst.searchTree hord fun _ _ => trivial
  · have hbucket := (hr.table.filter_flatten (treeContents_getElem hb)).map Stored.pair
    refine .trans ?_ (hrep.holds.filter fun p => decide (h.toUserSettings.bucket p.1 = b)).symm
    rw [List.map_map] at hbucket
    rw [List.filter_map]
    exact hbucket.symm
  · rw [hcount, UInt32.toNat_ofNat', Nat.mod_eq_of_lt hlt]

/-- A key that is inserted twice, and removed. -/
theorem rbtree_session_refines_map_twice :
    Total (session { hiSetZero with
        tableSize := 2, hashFunc := some ⟨0, lhiHashDumb1⟩, keyCmp := some hiCmpUint16T,
        collEng := .rbtree }
      [.insert ⟨[1, 0], by decide⟩ "one", .insert ⟨[1, 0], by decide⟩ "two",
        .remove ⟨[1, 0], by decide⟩]) (World.start fun _ _ => 0)
      fun r _ => ∃ h, r =
        .ok ([⟨success, none⟩, ⟨hiErrDupkey, none⟩, ⟨success, some "one"⟩], h) := by
  refine (rbtree_session_refines_map (s := { hiSetZero with
    tableSize := 2, hashFunc := some ⟨0, lhiHashDumb1⟩, keyCmp := some hiCmpUint16T,
    collEng := .rbtree }) rfl (by decide) rfl rfl rfl orderOn_hiCmpUint16T (fun _ _ _ => rfl)
    (World.start_allocsSucceed _) _).imp ?_
  rintro r w' ⟨h, ts, rfl, -⟩
  exact ⟨h, rfl⟩

/-! ## The shape of the trees -/

/-- The calls that change a tree. -/
inductive TreeCall (δ : Type)
  | insert (k : Key) (d : δ)
  | remove (k : Key)

/-- `lhi_insert_rbtree` and `lhi_remove_rbtree`. -/
def TreeCall.call (c : TreeCall δ) (h : HiHandle δ) : Prog (Result δ × HiHandle δ) :=
  match c with
  | insert k d => do
    let (status, h) ← lhiInsertRbtree h k.bytes k.keylen d
    pure (⟨status, none⟩, h)
  | remove k => lhiRemoveRbtree h k.bytes k.keylen

/-- A call keeps the trees linked and balanced, whatever the compare function says. -/
theorem TreeCall.runs_call {h : HiHandle δ} {w : World} (c : TreeCall δ)
    (hr : ∃ ts, RbRep h w ts) (hu : h.tableSize ≠ 0) :
    Total (c.call h) w fun r w' =>
      (∃ ts, RbRep r.2 w' ts) ∧ r.2.toUserSettings = h.toUserSettings := by
  obtain ⟨ts, hr⟩ := hr
  cases c with
  | insert k d =>
    obtain ⟨t, hb⟩ := hr.exists_tree hu k
    refine runs_bind.mpr (hr.runs_lhiInsertRbtree hu hb ?_ ?_ ?_)
    · exact fun _ _ _ _ _ _ _ _ _ hw _ => ⟨⟨ts, hr.mono hw⟩, rfl⟩
    · exact fun _ _ _ _ _ hw _ _ => ⟨⟨ts, hr.mono hw⟩, rfl⟩
    · exact fun _ _ _ _ _ _ _ _ _ _ hr' hu' _ _ _ => ⟨⟨_, hr'⟩, hu'⟩
  | remove k =>
    obtain ⟨t, hb⟩ := hr.exists_tree hu k
    refine hr.runs_lhiRemoveRbtree hu hb ?_ ?_
    · exact fun _ _ _ _ hw _ => ⟨⟨ts, hr.mono hw⟩, rfl⟩
    · exact fun _ _ _ _ _ _ _ _ _ _ _ _ hr' hu' _ _ => ⟨⟨_, hr'⟩, hu'⟩

/-- After every run of insertions and removals each bucket links a red-black tree in memory. No run
faults, so the loops that restore the balance terminate and follow no null pointer. -/
theorem rbtree_calls_keep_balance {s : HiInitSet} {u : UserSettings}
    (hs : lhiSetSanityCheck s = .ok u) (heng : u.collEng = .rbtree) (w : World) :
    Total (hiCreate s : Prog (Except Int (HiHandle δ))) w fun r w₀ =>
      (r = .error hiErrSystem ∧ ¬ w.AllocsSucceed) ∨
      ∃ h, r = .ok h ∧ ∀ cs : List (TreeCall δ),
        Total (Prog.calls TreeCall.call cs h) w₀ fun r _ =>
          ∀ b, b < u.tableSize.toNat → ∃ t lock, r.2.trees.cells[b]? = some ⟨t.root, lock⟩ ∧
            Links r.2.nodes none t.root t ∧ t.toList.Nodup ∧ t.RedBlack ∧
            t.depth ≤ 2 * Nat.log 2 (t.toList.length + 1) := by
  refine ((rbtreeEngine δ).runs_hiCreate hs heng).imp ?_
  rintro r w₀ (herr | ⟨h, rfl, hu, hrep⟩)
  · exact .inl herr
  refine .inr ⟨h, rfl, fun cs => ?_⟩
  obtain ⟨ts, hr, -, -⟩ := hrep.rep
  have hmeets : Meets TreeCall.call Machine.any (fun _ _ _ _ => True) cs () h w₀ :=
    Meets.of_forall fun _ _ _ _ => trivial
  refine (runs_calls (R := fun h w _ => (∃ ts, RbRep h w ts) ∧ h.toUserSettings = u)
    ⟨⟨ts, hr⟩, hu⟩ hmeets fun c h w _ hR _ => ?_).imp ?_
  · have hsize : h.tableSize = u.tableSize := congrArg UserSettings.tableSize hR.2
    refine (c.runs_call hR.1 (hsize ▸ (lhiSetSanityCheck_ok hs).1)).imp ?_
    exact fun _ _ h' => ⟨trivial, h'.1, h'.2.trans hR.2⟩
  rintro ⟨rs, h₁⟩ w₁ ⟨-, -, ⟨ts₁, hr₁⟩, hu₁⟩ b hb
  have hsize : h₁.tableSize = u.tableSize := congrArg UserSettings.tableSize hu₁
  have hlen : ts₁.length = u.tableSize.toNat := by
    simpa [treeContents, hsize] using hr₁.table.length
  obtain ⟨t, ht⟩ : ∃ t, ts₁[b]? = some t := ⟨_, List.getElem?_eq_getElem (by omega)⟩
  obtain ⟨lock, hroot⟩ := hr₁.roots b t ht
  have hmem : t ∈ ts₁ := List.mem_of_getElem? ht
  exact ⟨addrs t, lock, hroot, (hr₁.linked t hmem).links (hr₁.nodup_addrs ht), hr₁.nodup_addrs ht,
    hr₁.redBlack t hmem, (hr₁.redBlack t hmem).depth_le⟩

/-- Three insertions and a removal in one bucket. -/
theorem rbtree_calls_keep_balance_four :
    Total (hiCreate { hiSetZero with
        tableSize := 1, hashFunc := some ⟨0, lhiHashDumb1⟩, keyCmp := some hiCmpUint16T,
        collEng := .rbtree } : Prog (Except Int (HiHandle String))) (World.start fun _ _ => 0)
      fun r w₀ => ∃ h, r = .ok h ∧
        Total (Prog.calls TreeCall.call [.insert ⟨[1, 0], by decide⟩ "one",
            .insert ⟨[2, 0], by decide⟩ "two", .insert ⟨[3, 0], by decide⟩ "three",
            .remove ⟨[1, 0], by decide⟩] h) w₀
          fun r _ => ∃ t lock, r.2.trees.cells[0]? = some ⟨t.root, lock⟩ ∧
            Links r.2.nodes none t.root t ∧ t.RedBlack := by
  refine (rbtree_calls_keep_balance (u := ⟨1, .rbtree, 0, .fin (3 / 4), 0, ⟨0, lhiHashDumb1⟩, none,
    hiCmpUint16T⟩) rfl rfl _).imp ?_
  rintro r w₀ (⟨-, hfail⟩ | ⟨h, rfl, hruns⟩)
  · exact (hfail (World.start_allocsSucceed _)).elim
  refine ⟨h, rfl, (hruns _).imp fun r w₁ hb => ?_⟩
  obtain ⟨t, lock, h₁, h₂, -, h₃, -⟩ := hb 0 (by decide)
  exact ⟨t, lock, h₁, h₂, h₃⟩

end Hashish
