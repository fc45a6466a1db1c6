import Hashish.Engine
import Hashish.KeyOrder
import Hashish.RbtreeSnapshot
import Hashish.RbtreeSpec

/-!
# The tree engine as a map

The trees are search trees when the sign of `key_cmp` is an order on the keys that
meet. The descent goes to the right when the key is smaller than the one at the node,
so the larger keys lie on the left.

* `Sorted.before`, `Sorted.after`: where a descent ends, everything beside the
  path compares as the descent assumes.
* `rbtreeEngine`: the engine.
-/

namespace Hashish

open Hashish.Lib

variable {δ : Type} {w : World} {h : HiHandle δ} {ts : List (ColorTree (RbObj δ))}
  {t : ColorTree (RbObj δ)} {cmp : KeyCmp} {S : Key → Prop} {k : Key}

/-! ## Search trees -/

/-- The keys of the tree decrease from the left to the right. -/
def Sorted (cmp : KeyCmp) (t : ColorTree (RbObj δ)) : Prop :=
  t.toList.Pairwise fun x y => 0 < cmp x.key.bytes y.key.bytes

/-- The search trees for the descent: the entries on the left of a node are larger, those on its
right smaller. -/
def SearchTree (cmp : KeyCmp) : ColorTree (RbObj δ) → Prop
  | .nil => True
  | .node _ l a r => (∀ x ∈ l.toList, 0 < cmp x.key.bytes a.key.bytes) ∧
      (∀ x ∈ r.toList, cmp x.key.bytes a.key.bytes < 0) ∧ SearchTree cmp l ∧ SearchTree cmp r

theorem Sorted.searchTree (ho : OrderOn cmp S) (hS : ∀ x ∈ t.toList, S x.key) (hs : Sorted cmp t) :
    SearchTree cmp t := by
  induction t with
  | nil => trivial
  | node c l a r ihl ihr =>
    simp only [Sorted, ColorTree.toList] at hs hS
    obtain ⟨hl, hr, hlr⟩ := List.pairwise_append.mp hs
    obtain ⟨har, hr⟩ := List.pairwise_cons.mp hr
    refine ⟨fun x hx => hlr x hx a List.mem_cons_self, fun x hx => ?_, ihl ?_ hl, ihr ?_ hr⟩
    · exact (ho.antisymm (hS x (by simp [hx])) (hS a (by simp))).mpr (har x hx)
    · exact fun x hx => hS x (by simp [hx])
    · exact fun x hx => hS x (by simp [hx])

section Path

variable {c : Ctx (RbObj δ)} (ho : OrderOn cmp S) (hk : S k)
  (hS : ∀ x ∈ (c.plug t).toList, S x.key) (hs : Sorted cmp (c.plug t)) (hp : Path cmp k c)
include ho hk hS hs hp

/-- What lies before the end of a descent is larger than the key. -/
theorem Sorted.before : ∀ x ∈ c.before, cmp k.bytes x.key.bytes < 0 := by
  refine Ctx.before_of_path hs (fun x hx y hy hxy hy' => ?_) hp.right
  refine (ho.antisymm hk (hS x hx)).mpr ?_
  refine ho.lt_of_lt_of_le (hS x hx) (hS y hy) hk hxy ?_
  exact ((ho.antisymm hk (hS y hy)).mp hy').le

/-- What lies behind the end of a descent is smaller than the key. -/
theorem Sorted.after : ∀ x ∈ c.after, 0 < cmp k.bytes x.key.bytes :=
  Ctx.after_of_path hs
    (fun x hx y hy hxy hx' => ho.lt_of_lt_of_le hk (hS x hx) (hS y hy) hx' hxy.le) hp.left

end Path

theorem Sorted.find_miss {c : Ctx (RbObj δ)} (ho : OrderOn cmp S) (hk : S k)
    (hS : ∀ x ∈ (c.plug .nil).toList, S x.key) (hs : Sorted cmp (c.plug .nil)) (hp : Path cmp k c) :
    cmp.find ((c.plug .nil).toList.map RbObj.toStored) k = none := by
  refine KeyCmp.find_eq_none.mpr fun x hx h₀ => ?_
  obtain ⟨y, hy, rfl⟩ := List.mem_map.mp hx
  simp only [Ctx.toList_plug, ColorTree.toList, List.append_nil, List.mem_append] at hy
  rw [KeyCmp.same] at h₀
  rcases hy with hy | hy
  · have := hs.before ho hk hS hp y hy
    omega
  · have := hs.after ho hk hS hp y hy
    omega

/-- In a sorted tree no two entries have keys equal to `k`. -/
theorem Sorted.unique (ho : OrderOn cmp S) (hk : S k) (hS : ∀ x ∈ t.toList, S x.key)
    (hs : Sorted cmp t) {x y : RbObj δ} (hx : x ∈ t.toList) (hy : y ∈ t.toList)
    (hkx : cmp.same k x.key) (hky : cmp.same k y.key) : x = y := by
  by_contra hne
  have hsymm : Std.Symm fun x y : RbObj δ =>
      0 < cmp x.key.bytes y.key.bytes ∨ 0 < cmp y.key.bytes x.key.bytes := ⟨fun _ _ => Or.symm⟩
  -- Between two equal keys the order is not strict.
  have hnot : ∀ {a b : Key}, S a → S b → cmp.same k a → cmp.same k b →
      ¬ 0 < cmp a.bytes b.bytes := by
    intro a b ha hb hka hkb hab
    have hbk : 0 ≤ cmp b.bytes k.bytes := (ho.same_symm hk hb hkb).ge
    have hak := ho.lt_of_lt_of_le ha hb hk hab hbk
    exact hak.ne' (ho.same_symm hk ha hka)
  have hall : t.toList.Pairwise fun x y =>
      0 < cmp x.key.bytes y.key.bytes ∨ 0 < cmp y.key.bytes x.key.bytes := hs.imp Or.inl
  rcases hall.forall hx hy hne with hxy | hyx
  · exact hnot (hS x hx) (hS y hy) hkx hky hxy
  · exact hnot (hS y hy) (hS x hx) hky hkx hyx

theorem Sorted.find_of_mem (ho : OrderOn cmp S) (hk : S k) (hS : ∀ x ∈ t.toList, S x.key)
    (hs : Sorted cmp t) {x : RbObj δ} (hx : x ∈ t.toList) (hkx : cmp.same k x.key) :
    cmp.find (t.toList.map RbObj.toStored) k = some x.toStored := by
  cases hf : cmp.find (t.toList.map RbObj.toStored) k with
  | none => exact (KeyCmp.find_eq_none.mp hf _ (List.mem_map_of_mem hx) hkx).elim
  | some y =>
    obtain ⟨z, hz, rfl⟩ := List.mem_map.mp (KeyCmp.mem_of_find hf)
    rw [hs.unique ho hk hS hz hx (KeyCmp.same_of_find hf) hkx]

/-- A new leaf at the end of a descent keeps the tree sorted. -/
theorem Sorted.insert {c : Ctx (RbObj δ)} {x : RbObj δ} {t' : ColorTree (RbObj δ)} (ho : OrderOn cmp S)
    (hk : S x.key) (hS : ∀ y ∈ (c.plug .nil).toList, S y.key) (hs : Sorted cmp (c.plug .nil))
    (hp : Path cmp x.key c) (ht : t'.toList = c.before ++ x :: c.after) : Sorted cmp t' := by
  have hb := hs.before ho hk hS hp
  have ha := hs.after ho hk hS hp
  have hlist : (c.plug (.nil : ColorTree (RbObj δ))).toList = c.before ++ c.after := by
    rw [Ctx.toList_plug]
    simp [ColorTree.toList]
  rw [Sorted, hlist] at hs
  obtain ⟨h₁, h₂, h₃⟩ := List.pairwise_append.mp hs
  rw [Sorted, ht]
  refine List.pairwise_append.mpr ⟨h₁, List.pairwise_cons.mpr ⟨ha, h₂⟩, fun y hy z hz => ?_⟩
  rcases List.mem_cons.mp hz with rfl | hz
  · exact (ho.antisymm hk (hS y (by simp [hlist, hy]))).mp (hb y hy)
  · exact h₃ y hy z hz

/-! ## The contents -/

theorem flatten_treeContents (ts : List (ColorTree (RbObj δ))) :
    (treeContents ts).flatten = (rows ts).flatten.map RbObj.toStored := by
  rw [List.map_flatten, treeContents, rows, List.map_map]
  rfl

theorem treeContents_getElem {b : Nat} (hb : ts[b]? = some t) :
    (treeContents ts)[b]? = some (t.toList.map RbObj.toStored) := by
  simp [treeContents, hb]

theorem treeContents_set (b : Nat) (t : ColorTree (RbObj δ)) :
    treeContents (ts.set b t) = (treeContents ts).set b (t.toList.map RbObj.toStored) := by
  rw [treeContents, treeContents, List.map_set]

theorem sorted_set {b : Nat} (hs : ∀ m ∈ ts, Sorted cmp m) (ht : Sorted cmp t) :
    ∀ m ∈ ts.set b t, Sorted cmp m := by
  intro m hm
  rcases List.mem_or_eq_of_mem_set hm with hm | rfl
  · exact hs m hm
  · exact ht

/-- The keys of a tree are keys of the table. -/
theorem keysWith_tree {b : Nat} (hb : ts[b]? = some t) {x : RbObj δ} (hx : x ∈ t.toList) :
    keysWith (treeContents ts).flatten k x.key :=
  keysWith_mem (x := x.toStored) (List.mem_flatten.mpr
    ⟨_, List.mem_of_getElem? (treeContents_getElem hb), List.mem_map_of_mem hx⟩)

/-- What the tree engine relies on: equal keys have equal hashes, and the keys are ordered. -/
def OrderedKeys (f : HashFunc) (cmp : KeyCmp) (S : Key → Prop) : Prop :=
  f.Respects cmp S ∧ OrderOn cmp S

theorem OrderedKeys.mono {f : HashFunc} {S' : Key → Prop} (ho : OrderedKeys f cmp S')
    (hS : ∀ q, S q → S' q) : OrderedKeys f cmp S :=
  ⟨fun a b ha hb => ho.1 a b (hS a ha) (hS b hb), ho.2.mono hS⟩

section Operations

variable (he : h.collEng = .rbtree) (hr : RbRep h w ts) (hs : ∀ t ∈ ts, Sorted h.keyCmp t)
  (hu : h.tableSize ≠ 0)
  (hok : OrderedKeys h.hashFunc h.keyCmp (keysWith (treeContents ts).flatten k))

include hr hok in
theorem RbRep.find_contents (hb : ts[h.toUserSettings.bucket k]? = some t) :
    h.keyCmp.find (treeContents ts).flatten k = h.keyCmp.find (t.toList.map RbObj.toStored) k :=
  hr.table.find_flatten hok.1 (treeContents_getElem hb)

include hr hs hok in
theorem RbRep.find_hit {c : Ctx (RbObj δ)} {col : Color} {l r : ColorTree (RbObj δ)} {x : RbObj δ}
    (hb : ts[h.toUserSettings.bucket k]? = some (c.plug (.node col l x r)))
    (hx : h.keyCmp.same k x.key) :
    h.keyCmp.find (treeContents ts).flatten k = some x.toStored := by
  rw [hr.find_contents hok hb]
  refine (hs _ (List.mem_of_getElem? hb)).find_of_mem hok.2 keysWith_self
    (fun y hy => keysWith_tree hb hy) ?_ hx
  rw [Ctx.toList_plug]
  simp [ColorTree.toList]

include hr hs hok in
theorem RbRep.find_miss {c : Ctx (RbObj δ)}
    (hb : ts[h.toUserSettings.bucket k]? = some (c.plug .nil)) (hp : Path h.keyCmp k c) :
    h.keyCmp.find (treeContents ts).flatten k = none := by
  rw [hr.find_contents hok hb]
  exact (hs _ (List.mem_of_getElem? hb)).find_miss hok.2 keysWith_self
    (fun y hy => keysWith_tree hb hy) hp

include hr hs hok in
/-- The whole table has at most one pair for a key. -/
theorem RbRep.unique {x y : Stored δ} (hx : x ∈ (treeContents ts).flatten)
    (hy : y ∈ (treeContents ts).flatten) (hkx : h.keyCmp.same k x.key)
    (hky : h.keyCmp.same k y.key) : x = y := by
  -- Both pairs lie in the tree of the key's hash.
  have hin : ∀ {z : Stored δ}, z ∈ (treeContents ts).flatten → h.keyCmp.same k z.key →
      ∃ m o, ts[h.toUserSettings.bucket k]? = some m ∧ o ∈ m.toList ∧ o.toStored = z := by
    intro z hz hkz
    obtain ⟨m, hm, hzm⟩ := List.mem_flatten.mp hz
    obtain ⟨t, ht, rfl⟩ := List.mem_map.mp hm
    obtain ⟨o, ho, rfl⟩ := List.mem_map.mp hzm
    obtain ⟨b, hb⟩ := List.mem_iff_getElem?.mp ht
    have hplaced : h.toUserSettings.bucket o.key = b := hr.placed hb ho
    have hhash := hok.1 k o.key keysWith_self (keysWith_tree hb ho) hkz
    rw [UserSettings.bucket, ← hhash] at hplaced
    exact ⟨t, o, by rw [UserSettings.bucket, hplaced, hb], ho, rfl⟩
  obtain ⟨m, o, hm, ho, rfl⟩ := hin hx hkx
  obtain ⟨m', o', hm', ho', rfl⟩ := hin hy hky
  rw [hm] at hm'
  cases hm'
  rw [(hs m (List.mem_of_getElem? hm)).unique hok.2 keysWith_self (fun y hy => keysWith_tree hm hy)
    ho ho' hkx hky]

include hr hs hok in
/-- A search from the root of the tree of the key. -/
theorem rbtree_getNode (hb : ts[h.toUserSettings.bucket k]? = some t) :
    Total (lhiGetRbtreeNode h (h.toUserSettings.bucket k) (addrs t).root k.bytes) w fun r w' =>
      r = resultOf (h.keyCmp.find (treeContents ts).flatten k) ∧ w ≤ w' := by
  refine hr.runs_lhiGetRbtreeNode hb ?_ ?_
  · rintro c w' rfl hp hw -
    exact ⟨by rw [hr.find_miss hs hok hb hp]; rfl, hw⟩
  · rintro c col l x r w' rfl hx - hw -
    exact ⟨by rw [hr.find_hit hs hok hb hx]; rfl, hw⟩

include he hr hs hu hok in
theorem rbtree_get : Total (hiGet h k.bytes k.keylen) w fun r w' =>
    r = (resultOf (h.keyCmp.find (treeContents ts).flatten k), h) ∧ w ≤ w' := by
  obtain ⟨t, hb⟩ := hr.exists_tree hu k
  obtain ⟨lock, hroot⟩ := hr.roots _ t hb
  unfold hiGet lhiGetRbtree
  rw [he]
  refine runs_bind.mpr (runs_bind.mpr ((runs_bucketOf hu k).mpr ?_))
  refine runs_bind.mpr (Block.runs_load hr.treesAddr hroot ?_)
  exact (rbtree_getNode hr hs hok hb).imp fun r w' h' => ⟨congrArg (·, h) h'.1, h'.2⟩

include he hr hs hu hok in
theorem rbtree_remove : Total (hiRemove h k.bytes k.keylen) w fun r w' =>
    r.1 = resultOf (h.keyCmp.find (treeContents ts).flatten k) ∧
      r.2.toUserSettings = h.toUserSettings ∧
      ∃ ts', RbRep r.2 w' ts' ∧ (∀ t ∈ ts', Sorted h.keyCmp t) ∧
        match h.keyCmp.find (treeContents ts).flatten k with
        | none => (treeContents ts').flatten.Perm (treeContents ts).flatten
        | some x => (treeContents ts).flatten.Perm (x :: (treeContents ts').flatten) := by
  obtain ⟨t, hb⟩ := hr.exists_tree hu k
  unfold hiRemove
  rw [he]
  refine hr.runs_lhiRemoveRbtree hu hb ?_ ?_
  · rintro c w' rfl hp hw -
    rw [hr.find_miss hs hok hb hp]
    exact ⟨rfl, rfl, ts, hr.mono hw, hs, .refl _⟩
  · rintro c col l x r t' h' w' rfl hx - hl hr' hu' - -
    rw [hr.find_hit hs hok hb hx]
    refine ⟨rfl, hu', _, hr', sorted_set hs ?_, ?_⟩
    · have hold := hs _ (List.mem_of_getElem? hb)
      rw [Sorted, Ctx.toList_plug] at hold
      rw [Sorted, hl]
      refine hold.sublist ?_
      exact ((List.sublist_cons_self x r.toList).append_left l.toList).append_left c.before
        |>.append_right c.after
    · have hold := flatten_perm (treeContents_getElem hb)
      have hnew := flatten_set_perm (treeContents_getElem hb) (t'.toList.map RbObj.toStored)
      rw [treeContents_set]
      refine hold.trans (.trans ?_ (hnew.symm.cons _))
      rw [← List.cons_append, ← List.map_cons]
      refine (List.Perm.map _ ?_).append_right _
      rw [Ctx.toList_plug, hl]
      simp only [ColorTree.toList, List.append_assoc, List.cons_append]
      exact (List.perm_middle.append_left c.before).trans List.perm_middle

include he hr hs hu hok in
theorem rbtree_insert {d : δ} (hf : h.keyCmp.find (treeContents ts).flatten k = none) :
    Total (engineInsert h k.bytes k.keylen d) w fun r w' =>
      r.2.toUserSettings = h.toUserSettings ∧
      ((r.1 = success ∧ ∃ x ts', x.pair = (k, d) ∧ RbRep r.2 w' ts' ∧
          (∀ t ∈ ts', Sorted h.keyCmp t) ∧
          (treeContents ts').flatten.Perm (x :: (treeContents ts).flatten)) ∨
        (r.1 = hiErrSystem ∧ w.SomeFailed w' ∧ r.2 = h)) := by
  obtain ⟨t, hb⟩ := hr.exists_tree hu k
  unfold engineInsert
  rw [he]
  refine hr.runs_lhiInsertRbtree hu hb ?_ ?_ ?_
  · rintro c col l x r w' rfl hx - - -
    rw [hr.find_hit hs hok hb hx] at hf
    cases hf
  · rintro c n w' rfl hp hw - hfail
    exact ⟨rfl, .inr ⟨rfl, hfail.someFailed, rfl⟩⟩
  · rintro c x t' h' w' rfl hp rfl rfl hl hr' hu' - - -
    refine ⟨hu', .inl ⟨rfl, x.toStored, _, rfl, hr', sorted_set hs ?_, ?_⟩⟩
    · exact (hs _ (List.mem_of_getElem? hb)).insert hok.2 keysWith_self
        (fun y hy => keysWith_tree hb hy) hp hl
    · rw [treeContents_set]
      refine (flatten_set_perm (treeContents_getElem hb) _).trans ?_
      refine .trans ?_ ((flatten_perm (treeContents_getElem hb)).symm.cons _)
      rw [← List.cons_append, ← List.map_cons]
      refine (List.Perm.map _ ?_).append_right _
      rw [Ctx.toList_plug, hl]
      simp only [ColorTree.toList, List.append_nil]
      exact List.perm_middle

include he hr hs hu hok in
theorem rbtree_insertDup {d : δ} (hf : h.keyCmp.find (treeContents ts).flatten k ≠ none) :
    Total (engineInsert h k.bytes k.keylen d) w fun r _ => r = (hiErrDupkey, h) := by
  obtain ⟨t, hb⟩ := hr.exists_tree hu k
  unfold engineInsert
  rw [he]
  refine hr.runs_lhiInsertRbtree hu hb (fun _ _ _ _ _ _ _ _ _ _ _ => rfl) ?_ ?_
  · rintro c n w' rfl hp - - -
    exact (hf (hr.find_miss hs hok hb hp)).elim
  · rintro c x t' h' w' rfl hp - - - - - - - -
    exact (hf (hr.find_miss hs hok hb hp)).elim

end Operations

theorem rbtree_snapshot {E : Fault → Prop} {b : Nat} {a : BucketArray δ} (hr : RbRep h w ts)
    (hs : ∀ t ∈ ts, Sorted h.keyCmp t) (hb : ts[b]? = some t) :
    Runs E (lhiRbtreeBucketToArray h b a) w fun r _ =>
      (r = (hiErrNodata, a) ∧ (t.toList.map RbObj.toStored).length % 2 ^ 32 = 0) ∨
      (r = (hiErrSystem, a) ∧ ¬ w.AllocsSucceed) ∨
      (r.1 = 0 ∧ ∃ s, s ≠ [] ∧ r.2.nmemb = s.length ∧ r.2.Shows (s.map some) ∧
        SnapOf h.keyCmp
          (fun q => OrderedKeys h.hashFunc h.keyCmp (keysWith (treeContents ts).flatten q))
          (t.toList.map RbObj.toStored) s) := by
  have hperm := RbRep.preStored_perm t
  rw [List.length_map]
  refine hr.runs_lhiRbtreeBucketToArray hb (fun hm _ _ _ => .inl ⟨rfl, hm⟩)
    (fun _ _ _ _ _ hs => .inr (.inl ⟨rfl, hs.not_allocsSucceed⟩)) ?_
  intro s a' w' _ _ hne hlen hsub hfull hn ha
  refine .inr (.inr ⟨rfl, s, hne, hn, ha, ⟨?_, hsub.trans hperm.subperm, fun hlt q hq => ?_⟩⟩)
  · rw [List.length_map, hlen]
  · rw [hfull (by simpa using hlt)]
    have hin : ∀ {x}, x ∈ preStored t → x ∈ (treeContents ts).flatten := fun hx =>
      List.mem_flatten.mpr ⟨_, List.mem_of_getElem? (treeContents_getElem hb), hperm.mem_iff.mp hx⟩
    exact KeyCmp.find_perm hperm fun x hx y hy => hr.unique hs hq (hin hx) (hin hy)

theorem rbtree_fini (he : h.collEng = .rbtree) (hr : RbRep h w ts) :
    Total (lhiFiniInternal h) w fun r _ => r.1 = 0 := by
  unfold lhiFiniInternal
  simp only [he, runs_bind, runs_mutexLock]
  refine (hr.mono (w.le_log _)).runs_lhiFiniRbtree fun w' _ _ _ => ?_
  simp only [finishFini, runs_bind, runs_mutexUnlock]
  exact runs_lockDestroy fun _ _ _ _ _ _ => runs_free fun _ _ _ => rfl

/-- The trees are sorted red-black trees that hold the contents. -/
def TreeRep (h : HiHandle δ) (w : World) (bs : List (List (Stored δ))) : Prop :=
  ∃ ts, RbRep h w ts ∧ (∀ t ∈ ts, Sorted h.keyCmp t) ∧ treeContents ts = bs

/-- The engine of trees. -/
def rbtreeEngine (δ : Type) : Engine δ where
  covers e := e = .rbtree
  Admits := OrderedKeys
  Rep := TreeRep
  toArray := lhiRbtreeBucketToArray
  lateDup := True
  admits_mono h hS := h.mono hS
  respects h := h.1
  getNextBucket_eq he := by
    simp only [getNextBucket, he]
    rfl
  table := by
    rintro h w _ ⟨ts, hr, -, rfl⟩
    exact hr.table
  mono := by
    rintro h w w' _ ⟨ts, hr, hs, rfl⟩ hw
    exact ⟨ts, hr.mono hw, hs, rfl⟩
  count := by
    rintro h w _ ⟨ts, hr, -, rfl⟩
    rw [hr.count, flatten_treeContents, List.length_map]
  relabel := by
    rintro h w _ a p ⟨ts, hr, hs, rfl⟩
    exact ⟨ts, { hr with table := ⟨hr.table.length, hr.table.placed⟩ }, hs, rfl⟩
  lookup := by
    rintro h w _ k he ⟨ts, hr, hs, rfl⟩ hu hok
    unfold hiLookup
    rw [he]
    exact .inr ⟨by decide, .inl trivial⟩
  get := by
    rintro h w _ k he ⟨ts, hr, hs, rfl⟩ hu hok
    refine (rbtree_get he hr hs hu hok).imp ?_
    rintro _ w' ⟨rfl, hw⟩
    exact ⟨rfl, rfl, _, ⟨ts, hr.mono hw, hs, rfl⟩, List.forall₂_same.mpr fun _ _ => .refl _⟩
  remove := by
    rintro h w _ k he ⟨ts, hr, hs, rfl⟩ hu hok
    refine (rbtree_remove he hr hs hu hok).imp ?_
    rintro r w' ⟨h₁, h₂, ts', hr', hs', hp⟩
    have hcmp : r.2.keyCmp = h.keyCmp := (congrArg UserSettings.keyCmp h₂ :)
    exact ⟨h₁, h₂, _, ⟨ts', hr', hcmp ▸ hs', rfl⟩, hp⟩
  insert := by
    rintro h w _ k d he ⟨ts, hr, hs, rfl⟩ hu hok hf
    refine (rbtree_insert he hr hs hu hok hf).imp ?_
    rintro r w' ⟨h₂, ⟨h₁, x, ts', hx, hr', hs', hp⟩ | ⟨h₁, hfail, h₃⟩⟩
    · have hcmp : r.2.keyCmp = h.keyCmp := (congrArg UserSettings.keyCmp h₂ :)
      have hhash : r.2.hashFunc = h.hashFunc := (congrArg UserSettings.hashFunc h₂ :)
      refine ⟨h₂, .inl ⟨h₁, x, _, hx, ⟨ts', hr', hcmp ▸ hs', rfl⟩, hp, fun q hq => ?_⟩⟩
      -- The keys of the new table are those of the old one with the new one.
      have hq' : OrderedKeys r.2.hashFunc r.2.keyCmp (keysWith (treeContents ts').flatten q) := by
        rw [hcmp, hhash]
        exact hq.mono fun q' => keysWith_mono fun y hy => ⟨y, hp.mem_iff.mp hy, rfl⟩
      refine KeyCmp.find_perm hp fun y hy z hz hky hkz => ?_
      exact hr'.unique (hcmp ▸ hs') hq' hy hz (hcmp ▸ hky) (hcmp ▸ hkz)
    · exact ⟨h₂, .inr ⟨by rw [h₁]; decide, by rw [h₁]; decide, hfail, h₃⟩⟩
  insertDup := by
    rintro h w _ k d - he ⟨ts, hr, hs, rfl⟩ hu hok hf
    exact rbtree_insertDup he hr hs hu hok hf
  snapshot := by
    rintro E h w _ b l a he ⟨ts, hr, hs, rfl⟩ hl -
    rw [treeContents, List.getElem?_map, Option.map_eq_some_iff] at hl
    obtain ⟨t, ht, rfl⟩ := hl
    exact rbtree_snapshot hr hs ht
  fini := by
    rintro h w _ he ⟨ts, hr, -, rfl⟩
    exact rbtree_fini he hr
  create := by
    intro w u p sizes lock he
    have he' : (HiHandle.ofSettings u p sizes lock : HiHandle δ).collEng = .rbtree := he
    unfold createEng
    rw [he']
    refine RbRep.runs_lhiCreateEngRbtree (fun w' _ hfail => .inl ⟨rfl, hfail⟩) fun h' w' _ hr hu _ => ?_
    refine .inr ⟨h', rfl, hu, _, hr, fun t ht => ?_, by simp [treeContents, ColorTree.toList]⟩
    rw [List.eq_of_mem_replicate ht]
    exact List.Pairwise.nil

end Hashish
