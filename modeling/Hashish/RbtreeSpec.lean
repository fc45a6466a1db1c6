import Hashish.Operations
import Hashish.RbtreeForest

/-!
# What the tree engine does

The operations on one tree, whatever order the compare function induces.

* `runs_lhiGetRbtree`, `runs_lhiRemoveRbtree`, `runs_lhiInsertRbtree`: the node where
  the descent ends is returned, taken out, or a new leaf is put there and the tree is
  balanced. The trees stay red-black trees.
* `runs_lhiFiniRbtree`, `runs_lhiCreateEngRbtree`: the end and the start of a table.
-/

namespace Hashish

open Hashish.Lib

variable {δ : Type} {E : Fault → Prop} {w : World} {h : HiHandle δ} {ts : List (ColorTree (RbObj δ))}
  {b : Nat} {t : ColorTree (RbObj δ)}

namespace RbRep

/-- Running a function of the tree library on the tree of a bucket. -/
theorem runs_onTree {f : RbRoot → Except Fault RbRoot} {s : RbRoot} {lock : Option Ptr}
    {Q : HiHandle δ → World → Prop} (hr : RbRep h w ts) (hb : ts[b]? = some t)
    (hlock : h.trees.cells[b]? = some ⟨(addrs t).root, lock⟩)
    (hf : f (layout h.nodes (addrs t)) = .ok s)
    (hQ : Q { h with
      nodes := s.nodes
      trees := { h.trees with cells := h.trees.cells.set b ⟨s.rbNode, lock⟩ } } w) :
    Runs E (h.onTree b f) w Q := by
  unfold HiHandle.onTree
  refine runs_bind.mpr (Block.runs_load hr.treesAddr hlock ?_)
  rw [linked_iff.mp (hr.linked t (List.mem_of_getElem? hb))] at hf
  refine runs_bind.mpr (runs_ofExcept hf ?_)
  exact runs_bind.mpr (Block.runs_store hr.treesAddr (hr.lt hb) hQ)

/-- The blocks of a handle with the entries `xs`, and of one that is left without them. -/
theorem treeBlocks_perm {h' : HiHandle δ} {ts' : List (ColorTree (RbObj δ))} {xs : List (RbObj δ)}
    (hp : (rows ts).flatten.Perm (xs ++ (rows ts').flatten)) (ht : treeBlocks h' = treeBlocks h) :
    (entryBlocks ts ++ treeBlocks h).Perm
      (xs.flatMap RbObj.blocks ++ (entryBlocks ts' ++ treeBlocks h')) := by
  rw [entryBlocks, entryBlocks, ht, ← List.append_assoc, ← List.flatMap_append]
  exact (hp.flatMap_right _).append_right _

/-- A tree with another root keeps its lock. -/
theorem treeBlocks_set {root root' lock : Option Ptr} {nodes : Heap RbNode} {entries : Heap (Entry δ)}
    {sizes : List UInt32} {n : UInt32} (hb : h.trees.cells[b]? = some ⟨root, lock⟩) :
    treeBlocks { h with
      nodes := nodes
      entries := entries
      trees := { h.trees with cells := h.trees.cells.set b ⟨root', lock⟩ }
      bucketSize := { h.bucketSize with cells := sizes }
      noObjects := n } = treeBlocks h := by
  obtain ⟨p, q, hcells, hset⟩ := exists_split hb
  have hlocks : (h.trees.cells.set b ⟨root', lock⟩).filterMap HiRbTree.rwlock =
      h.trees.cells.filterMap HiRbTree.rwlock := by
    rw [hset, hcells]
    simp only [List.filterMap_append, List.filterMap_cons]
  exact congrArg (· ++ _) hlocks

/-- The trees hold no entries when their roots are empty. -/
theorem entryBlocks_eq_nil (hr : RbRep h w ts) :
    entryBlocks ts = [] ↔ ∀ r ∈ h.trees.cells, r.rbNode = none := by
  have hroot : ∀ t : ColorTree (RbObj δ), (addrs t).root = none ↔ t.toList = [] := by
    intro t
    cases t <;> simp [addrs, ColorTree.map, ColorTree.root, ColorTree.toList]
  have hall : entryBlocks ts = [] ↔ ∀ t ∈ ts, t.toList = [] := by
    simp only [entryBlocks, rows, RbObj.blocks, List.flatMap_eq_nil_iff, List.mem_flatten, List.mem_map,
      reduceCtorEq, imp_false, List.eq_nil_iff_forall_not_mem (l := ColorTree.toList _)]
    grind
  rw [hall]
  constructor
  · intro hempty r hmem
    obtain ⟨b, hb⟩ := List.mem_iff_getElem?.mp hmem
    have hlt : b < ts.length := hr.treesLength ▸ (List.getElem?_eq_some_iff.mp hb).1
    obtain ⟨lock, hcell⟩ := hr.roots b _ (List.getElem?_eq_getElem hlt)
    cases hb.symm.trans hcell
    exact (hroot _).mpr (hempty _ (List.getElem_mem hlt))
  · intro hnone t ht
    obtain ⟨b, hb⟩ := List.mem_iff_getElem?.mp ht
    obtain ⟨lock, hcell⟩ := hr.roots b t hb
    exact (hroot t).mp (hnone _ (List.mem_of_getElem? hcell))

/-! ## Retrieval -/

/-- The part that holds the lock, when the root that was read is still the root of the tree. -/
theorem runs_lhiGetRbtreeNode {k : Key} {b : Nat} {Q : Result δ → World → Prop} (hr : RbRep h w ts)
    (hb : ts[b]? = some t)
    (hnone : ∀ (c : Ctx (RbObj δ)) w', t = c.plug .nil → Path h.keyCmp k c → w ≤ w' →
      w'.moves = w.moves → Q ⟨hiErrNokey, none⟩ w')
    (hsome : ∀ c col l x r w', t = c.plug (.node col l x r) → h.keyCmp.same k x.key →
      Path h.keyCmp k c → w ≤ w' → w'.moves = w.moves → Q ⟨success, some x.data⟩ w') :
    Runs E (lhiGetRbtreeNode h b (addrs t).root k.bytes) w Q := by
  obtain ⟨lock, hroot⟩ := hr.roots _ t hb
  unfold lhiGetRbtreeNode
  refine runs_bind.mpr (Block.runs_load hr.treesAddr hroot ?_)
  rw [runs_bind, runs_rdlock, runs_bind, runs_walkBound, runs_bind]
  have hlog := w.le_log (.rdlock lock)
  refine (hr.mono hlog).runs_rbDescend_root hb (Nat.lt_succ_self _) ?_ ?_
  · rintro c col l x r rfl hs hp
    have hx : x ∈ (c.plug (.node col l x r)).toList := by
      rw [Ctx.toList_plug]
      simp [ColorTree.toList]
    refine runs_bind.mpr (runs_deref (hr.entries _ (List.mem_of_getElem? hb) x hx) ?_)
    rw [runs_bind, runs_rwUnlock, runs_pure]
    exact hsome c col l x r _ rfl hs hp (hlog.trans (World.le_log _ _)) (by simp)
  · rintro c rfl hp
    rw [runs_bind, runs_rwUnlock, runs_pure]
    exact hnone c _ rfl hp (hlog.trans (World.le_log _ _)) (by simp)

theorem runs_lhiGetRbtree {k : Key} {Q : Result δ → World → Prop} (hr : RbRep h w ts)
    (hu : h.tableSize ≠ 0) (hb : ts[h.toUserSettings.bucket k]? = some t)
    (hnone : ∀ (c : Ctx (RbObj δ)) w', t = c.plug .nil → Path h.keyCmp k c → w ≤ w' →
      w'.moves = w.moves → Q ⟨hiErrNokey, none⟩ w')
    (hsome : ∀ c col l x r w', t = c.plug (.node col l x r) → h.keyCmp.same k x.key →
      Path h.keyCmp k c → w ≤ w' → w'.moves = w.moves → Q ⟨success, some x.data⟩ w') :
    Runs E (lhiGetRbtree h k.bytes k.keylen) w Q := by
  obtain ⟨lock, hroot⟩ := hr.roots _ t hb
  unfold lhiGetRbtree
  refine runs_bind.mpr ((runs_bucketOf hu k).mpr ?_)
  refine runs_bind.mpr (Block.runs_load hr.treesAddr hroot ?_)
  exact hr.runs_lhiGetRbtreeNode hb hnone hsome

/-! ## Removal -/

/-- Erasing the node `x` of a linked tree gives a linked tree without `x`; the nodes that lie
neither in the tree nor at `x` do not change. -/
theorem rbErase_linked (nodes : Heap RbNode) {fuel : Nat} {c : Ctx (RbObj δ)} {col : Color}
    {l r : ColorTree (RbObj δ)} {x : RbObj δ}
    (hnd : (addrs (c.plug (.node col l x r))).toList.Nodup)
    (hrb : (addrs (c.plug (.node col l x r))).RedBlack)
    (hfuel : (c.plug (.node col l x r)).toList.length < fuel) :
    ∃ s t', rbErase fuel (layout nodes (addrs (c.plug (.node col l x r)))) x.self = .ok s ∧
      s.rbNode = (addrs t').root ∧ Linked s.nodes (addrs t') ∧ (addrs t').RedBlack ∧
      t'.toList = c.before ++ (l.toList ++ r.toList) ++ c.after ∧
      ∀ q, q ≠ x.self → q ∉ (addrs t').toList → s.nodes q = nodes q := by
  have hlen : (addrs (c.plug (.node col l x r))).toList.length < fuel := by
    rw [toList_addrs, List.length_map]
    exact hfuel
  rw [addrs_plug] at hnd hrb hlen ⊢
  obtain ⟨T, M', hrun, hbase, hl, hT⟩ := rbErase_layout (M := nodes) hnd hrb hlen
  have hmap : T.toList =
      (c.before ++ (l.toList ++ r.toList) ++ c.after).map RbObj.self := by
    rw [hl, Ctx.before_relabel, Ctx.after_relabel]
    simp
  obtain ⟨t', rfl, ht'⟩ := ColorTree.exists_map hmap
  refine ⟨_, t', hrun, rfl, linked_layout, hT, ht', fun q hq hqt => ?_⟩
  exact (layout_outside hqt).trans (hbase q hq hqt)

theorem runs_lhiRemoveRbtree {k : Key} {Q : Result δ × HiHandle δ → World → Prop}
    (hr : RbRep h w ts) (hu : h.tableSize ≠ 0) (hb : ts[h.toUserSettings.bucket k]? = some t)
    (hnone : ∀ (c : Ctx (RbObj δ)) w', t = c.plug .nil → Path h.keyCmp k c → w ≤ w' →
      w'.moves = w.moves → Q (⟨hiErrNokey, none⟩, h) w')
    (hsome : ∀ c col l x r t' h' w', t = c.plug (.node col l x r) → h.keyCmp.same k x.key →
      Path h.keyCmp k c → t'.toList = c.before ++ (l.toList ++ r.toList) ++ c.after →
      RbRep h' w' (ts.set (h.toUserSettings.bucket k) t') →
      h'.toUserSettings = h.toUserSettings → w ≤ w' →
      w.Books w' (entryBlocks ts ++ treeBlocks h)
        (entryBlocks (ts.set (h.toUserSettings.bucket k) t') ++ treeBlocks h') →
      Q (⟨success, some x.data⟩, h') w') :
    Runs E (lhiRemoveRbtree h k.bytes k.keylen) w Q := by
  obtain ⟨lock, hroot⟩ := hr.roots _ t hb
  unfold lhiRemoveRbtree lhiRemoveRbtreeNode
  refine runs_bind.mpr (runs_bind.mpr ((runs_bucketOf hu k).mpr ?_))
  refine runs_bind.mpr (Block.runs_load hr.treesAddr hroot ?_)
  rw [runs_bind, runs_wrlock, runs_bind]
  have hlog := w.le_log (.wrlock lock)
  have hr₁ := hr.mono hlog
  refine hr₁.runs_descend hb ?_ ?_
  · rintro c col l x r rfl hs hp
    have hmem : c.plug (.node col l x r) ∈ ts := List.mem_of_getElem? hb
    have hlist : (c.plug (.node col l x r)).toList =
        c.before ++ (l.toList ++ x :: r.toList) ++ c.after := Ctx.toList_plug _ _
    have hx : x ∈ (c.plug (.node col l x r)).toList := by simp [hlist]
    obtain ⟨s, t', hrun, hsroot, hlinked, hrb, hl, hnodes⟩ := rbErase_linked h.nodes
      (hr.nodup_addrs hb) (hr.redBlack _ hmem) (Nat.lt_succ_of_le (hr₁.length_le hb))
    refine runs_bind.mpr (runs_deref (hr.entries _ hmem x hx) ?_)
    rw [runs_bind, runs_walkBound]
    refine runs_bind.mpr (hr₁.runs_onTree hb hroot hrun ?_)
    refine runs_bind.mpr (runs_free_moves fun w₁ hw₁ _ hm₁ => ?_)
    refine runs_bind.mpr (runs_free_moves fun w₂ hw₂ _ hm₂ => ?_)
    refine runs_bind.mpr (Block.runs_load hr.sizeAddr (hr.size_of_tree hb) ?_)
    refine runs_bind.mpr (Block.runs_store hr.sizeAddr (hr.size_lt hb) ?_)
    rw [runs_bind, runs_rwUnlock, runs_pure]
    simp only [if_true, HiHandle.uncountObject, runs_bind, runs_mutexLock, runs_mutexUnlock, runs_pure]
    have hw : w ≤ ((w₂.log (.rwUnlock lock)).log (.lock h.mutexLock)).log (.unlock h.mutexLock) :=
      hlog.trans (hw₁.trans (hw₂.trans ((World.le_log _ _).trans ((World.le_log _ _).trans
        (World.le_log _ _)))))
    have hperm : (c.plug (.node col l x r)).toList.Perm (x :: t'.toList) := by
      rw [hlist, hl]
      simp only [List.append_assoc, List.cons_append]
      exact (List.perm_middle.append_left c.before).trans List.perm_middle
    have hall : (rows ts).flatten.Perm
        ([x] ++ (rows (ts.set (h.toUserSettings.bucket k) t')).flatten) := by
      rw [rows_set]
      exact ((flatten_perm (row hb)).trans (hperm.append_right _)).trans
        ((flatten_set_perm (row hb) t'.toList).symm.cons x)
    refine hsome c col l x r t' _ _ rfl hs hp hl ?_ rfl hw
      (.gives (show _ = w.moves ++ x.blocks.map .give from ?_)
        (treeBlocks_perm hall (treeBlocks_set hroot)))
    swap
    · simp [hm₂, hm₁, Stored.entry, RbObj.blocks]
    obtain ⟨hnd, -, hdisj⟩ := hr.distinct_tree hb
    have hsub : ∀ y ∈ t'.toList, y ∈ (c.plug (.node col l x r)).toList := by
      intro y hy
      rw [hl] at hy
      rw [hlist]
      simp only [List.mem_append, List.mem_cons] at hy ⊢
      tauto
    have hnd' : (x.self :: t'.toList.map RbObj.self).Nodup :=
      ((hperm.map RbObj.self).nodup_iff).mp hnd
    have hxnot : ∀ y ∈ t'.toList, y.self ≠ x.self := fun y hy he =>
      (List.nodup_cons.mp hnd').1 (he ▸ List.mem_map_of_mem hy)
    refine hr.update hb lock rfl ?_ rfl ?_ hrb ?_ ?_ ?_ rfl ?_ ?_ ?_ ?_ ?_ hw
    · rw [hsroot]
    · refine hlinked.congr fun q hq => Heap.set_other _ _ fun he => ?_
      rw [toList_addrs] at hq
      obtain ⟨y, hy, rfl⟩ := List.mem_map.mp hq
      exact hxnot y hy he
    · intro y hy
      exact (Heap.set_other _ _ (hxnot y hy)).trans (hr.entries _ hmem y (hsub y hy))
    · intro y hy
      have hne : y.self ≠ x.self := fun he => hdisj x hx y hy he.symm
      refine ⟨(Heap.set_other _ _ hne).trans (hnodes _ hne fun hq => ?_), Heap.set_other _ _ hne⟩
      rw [toList_addrs] at hq
      obtain ⟨z, hz, he⟩ := List.mem_map.mp hq
      exact hdisj z (hsub z hz) y hy he
    · show _ = h.bucketSize.cells.set _ _
      rw [hperm.length_eq, List.length_cons, ofNat_pred]
    · show h.noObjects - 1 = _
      rw [hr.count_eq hb, hperm.length_eq, List.length_cons, Nat.add_right_comm, ofNat_pred]
    · exact fun y hy => hr.placed hb (hsub y hy)
    · exact (List.nodup_cons.mp hnd').2
    · exact fun y hy => hdisj y (hsub y hy)
    · exact fun y hy => Nat.lt_of_lt_of_le (hr.fresh_tree hb (hsub y hy)) hw.requests
  · rintro c rfl hp
    rw [runs_bind, runs_rwUnlock, runs_pure]
    exact hnone c _ rfl hp (hlog.trans (World.le_log _ _)) (by simp)

/-! ## Insertion -/

/-- Linking a new leaf into the hole of a linked tree, and balancing. -/
theorem rbInsert_linked (nodes : Heap RbNode) {fuel : Nat} {c : Ctx (RbObj δ)} {x : RbObj δ}
    (hnd : (x.self :: (c.plug .nil).toList.map RbObj.self).Nodup)
    (hrb : (addrs (c.plug .nil)).RedBlack) (hfuel : (c.plug .nil).toList.length < fuel) :
    ∃ s t', (do
        let root ← rbLinkNode (layout nodes (addrs (c.plug .nil))) x.self
          (c.relabel RbObj.self).parent (linkOf (c.relabel RbObj.self))
        rbInsertColor fuel root x.self) = .ok s ∧
      s.rbNode = (addrs t').root ∧ Linked s.nodes (addrs t') ∧ (addrs t').RedBlack ∧
      t'.toList = c.before ++ x :: c.after ∧
      ∀ q, q ∉ (addrs t').toList → s.nodes q = nodes q := by
  have hlist : (c.plug (.nil : ColorTree (RbObj δ))).toList = c.before ++ c.after := by
    rw [Ctx.toList_plug]
    simp [ColorTree.toList]
  have hlen : (c.relabel RbObj.self).length < fuel := by
    have := Ctx.length_le_toList c (.nil : ColorTree (RbObj δ))
    simp only [Ctx.relabel, List.length_map]
    omega
  rw [addrs_plug] at hrb ⊢
  have hleaf : ((c.relabel RbObj.self).plug (.node .red .nil x.self .nil)).toList.Nodup := by
    rw [Ctx.toList_plug, Ctx.before_relabel, Ctx.after_relabel]
    simp only [ColorTree.toList, List.nil_append, List.append_assoc, List.singleton_append]
    rw [hlist, List.map_append] at hnd
    exact (List.perm_middle.nodup_iff).mpr hnd
  obtain ⟨T, hrun, hT, hTrb⟩ := rbInsertColor_layout (M := nodes) hleaf hrb hlen
  have hmap : T.toList = (c.before ++ x :: c.after).map RbObj.self := by
    rw [hT, Ctx.toList_plug, Ctx.before_relabel, Ctx.after_relabel]
    simp [ColorTree.toList]
  obtain ⟨t', rfl, ht'⟩ := ColorTree.exists_map hmap
  refine ⟨_, t', ?_, rfl, linked_layout, hTrb, ht', fun q hq => layout_outside hq⟩
  rw [show addrs (.nil : ColorTree (RbObj δ)) = .nil from rfl, link_layout hleaf, ok_bind]
  exact hrun

theorem runs_lhiRbEntryNew {k : Key} {d : δ} {Q : Option (Ptr × Entry δ) → World → Prop}
    (hfail : ∀ n w', w ≤ w' → n < 2 → w.Refused n w' → Q none w')
    (hok : ∀ x : RbObj δ, ∀ w', x.key = k → x.data = d → x.self = w.requests → w ≤ w' →
      x.self < w'.requests → w.Served 2 w' → w'.moves = w.moves ++ [.take x.self, .take x.keyAddr] →
      Q (some (x.self, x.entry)) w') :
    Runs E (lhiRbEntryNew k.bytes d k.keylen) w Q := by
  unfold lhiRbEntryNew
  refine runs_bind.mpr (runs_malloc_refused
    (fun w₁ hw₁ hs => hfail 0 w₁ hw₁ (by decide) hs) ?_)
  intro junk w₁ hw₁ hreq₁ hjunk₁ hm₁
  have hserved : w.Served 1 w₁ := .one hreq₁ hjunk₁
  refine runs_bind.mpr (runs_malloc_refused (fun w₂ hw₂ hs => ?_)
    fun junk₂ w₂ hw₂ hreq₂ hjunk₂ hm₂ => ?_)
  · refine runs_bind.mpr (runs_free fun w₃ hw₃ hreq₃ => ?_)
    exact hfail 1 w₃ (hw₁.trans (hw₂.trans hw₃)) (by decide)
      ((hserved.refused hw₁ hs).after hreq₃)
  · refine runs_bind.mpr (runs_memcpy (by simp) ?_)
    refine hok ⟨⟨k, d, w₁.requests⟩, w.requests⟩ w₂ rfl rfl rfl (hw₁.trans hw₂) ?_
      (hserved.trans hw₁ (.one hreq₂ hjunk₂)) (by simp [hm₂, hm₁])
    exact Nat.lt_of_lt_of_le (by rw [hreq₁]; exact Nat.lt_succ_self _) hw₂.requests

theorem runs_lhiInsertRbtree {k : Key} {d : δ} {Q : Int × HiHandle δ → World → Prop}
    (hr : RbRep h w ts) (hu : h.tableSize ≠ 0) (hb : ts[h.toUserSettings.bucket k]? = some t)
    (hdup : ∀ c col l x r w', t = c.plug (.node col l x r) → h.keyCmp.same k x.key →
      Path h.keyCmp k c → w ≤ w' → w'.moves = w.moves → Q (hiErrDupkey, h) w')
    (hfail : ∀ (c : Ctx (RbObj δ)) n w', t = c.plug .nil → Path h.keyCmp k c → w ≤ w' →
      n < 2 → w.Refused n w' → Q (hiErrSystem, h) w')
    (hok : ∀ (c : Ctx (RbObj δ)) x t' h' w', t = c.plug .nil → Path h.keyCmp k c →
      x.key = k → x.data = d → t'.toList = c.before ++ x :: c.after →
      RbRep h' w' (ts.set (h.toUserSettings.bucket k) t') →
      h'.toUserSettings = h.toUserSettings → w ≤ w' → w.Served 2 w' →
      w.Books w' (entryBlocks ts ++ treeBlocks h)
        (entryBlocks (ts.set (h.toUserSettings.bucket k) t') ++ treeBlocks h') →
      Q (success, h') w') :
    Runs E (lhiInsertRbtree h k.bytes k.keylen d) w Q := by
  obtain ⟨lock, hroot⟩ := hr.roots _ t hb
  unfold lhiInsertRbtree lhiInsertRbtreeNode
  refine runs_bind.mpr (runs_bind.mpr ((runs_bucketOf hu k).mpr ?_))
  refine runs_bind.mpr (Block.runs_load hr.treesAddr hroot ?_)
  rw [runs_bind, runs_wrlock, runs_bind]
  have hlog := w.le_log (.wrlock lock)
  refine (hr.mono hlog).runs_descend hb ?_ ?_
  · rintro c col l x r rfl hs hp
    rw [runs_bind, runs_rwUnlock, runs_pure]
    exact hdup c col l x r _ rfl hs hp (hlog.trans (World.le_log _ _)) (by simp)
  rintro c rfl hp
  refine runs_bind.mpr (runs_lhiRbEntryNew (fun n w₁ hw₁ hn hs => ?_)
    fun x w₁ hxk hxd hx hw₁ hlt hserved hm₁ => ?_)
  · rw [runs_bind, runs_rwUnlock, runs_pure]
    exact hfail c n _ rfl hp (hlog.trans (hw₁.trans (World.le_log _ _))) hn
      (hs.of_log.after rfl)
  have hmem : c.plug .nil ∈ ts := List.mem_of_getElem? hb
  have hlist : (c.plug (.nil : ColorTree (RbObj δ))).toList = c.before ++ c.after := by
    rw [Ctx.toList_plug]
    simp [ColorTree.toList]
  have hw₁' := hlog.trans hw₁
  have hr₁ := hr.mono hw₁'
  obtain ⟨hnd, -, hdisj⟩ := hr.distinct_tree hb
  -- The new entry lies at an address that no tree uses.
  have hnew : ∀ y ∈ (rows ts).flatten, y.self ≠ x.self := by
    intro y hy
    rw [hx]
    exact Nat.ne_of_lt (Nat.lt_of_lt_of_le (hr.fresh y hy) hlog.requests)
  have hin : ∀ y ∈ (c.plug (.nil : ColorTree (RbObj δ))).toList ++
      others (rows ts) (h.toUserSettings.bucket k), y ∈ (rows ts).flatten := fun y hy =>
    (flatten_perm (row hb)).mem_iff.mpr hy
  have hxnd : (x.self :: (c.plug (.nil : ColorTree (RbObj δ))).toList.map RbObj.self).Nodup := by
    refine List.nodup_cons.mpr ⟨fun hm => ?_, hnd⟩
    obtain ⟨y, hy, he⟩ := List.mem_map.mp hm
    exact hnew y (hin y (by simp [hy])) he
  obtain ⟨s, t', hrun, hsroot, hlinked, hrb, hl, hnodes⟩ := rbInsert_linked h.nodes
    hxnd (hr.redBlack _ hmem) (Nat.lt_succ_of_le (hr₁.length_le hb))
  rw [runs_bind, runs_walkBound]
  refine runs_bind.mpr (hr₁.runs_onTree hb hroot hrun ?_)
  refine runs_bind.mpr (Block.runs_load hr.sizeAddr (hr.size_of_tree hb) ?_)
  refine runs_bind.mpr (Block.runs_store hr.sizeAddr (hr.size_lt hb) ?_)
  rw [runs_bind, runs_rwUnlock, runs_pure]
  simp only [if_true, HiHandle.countObject, runs_bind, runs_mutexLock, runs_mutexUnlock, runs_pure]
  have hw : w ≤ ((w₁.log (.rwUnlock lock)).log (.lock h.mutexLock)).log (.unlock h.mutexLock) :=
    hw₁'.trans ((World.le_log _ _).trans ((World.le_log _ _).trans (World.le_log _ _)))
  have hperm : t'.toList.Perm (x :: (c.plug (.nil : ColorTree (RbObj δ))).toList) := by
    rw [hl, hlist]
    exact List.perm_middle
  refine hok c x t' _ _ rfl hp hxk hxd hl ?_ rfl hw (hserved.of_log.after rfl) ?_
  swap
  · have htook : w.Books (((w₁.log (.rwUnlock lock)).log (.lock h.mutexLock)).log
        (.unlock h.mutexLock)) (entryBlocks ts ++ treeBlocks h)
        (x.blocks ++ (entryBlocks ts ++ treeBlocks h)) :=
      .trans (.take (show (w.log (.alloc x.self)).moves = _ by simp)) (.take (by simp [hm₁]))
    have hall : (rows (ts.set (h.toUserSettings.bucket k) t')).flatten.Perm
        ([x] ++ (rows ts).flatten) := by
      rw [rows_set]
      exact (flatten_set_perm (row hb) _).trans
        ((hperm.append_right _).trans ((flatten_perm (row hb)).symm.cons x))
    exact htook.perm (treeBlocks_perm hall (treeBlocks_set hroot).symm).symm
  have hsub : ∀ y ∈ t'.toList, y = x ∨ y ∈ (c.plug (.nil : ColorTree (RbObj δ))).toList := fun y hy =>
    List.mem_cons.mp (hperm.mem_iff.mp hy)
  refine hr.update hb lock rfl ?_ rfl hlinked hrb ?_ ?_ ?_ rfl ?_ ?_ ?_ ?_ ?_ hw
  · rw [hsroot]
  · intro y hy
    rcases hsub y hy with rfl | hy
    · exact Heap.set_same _ _ _
    · exact (Heap.set_other _ _ (hnew y (hin y (by simp [hy])))).trans (hr.entries _ hmem y hy)
  · intro y hy
    refine ⟨hnodes _ fun hq => ?_, Heap.set_other _ _ (hnew y (hin y (by simp [hy])))⟩
    rw [toList_addrs] at hq
    obtain ⟨z, hz, he⟩ := List.mem_map.mp hq
    rcases hsub z hz with rfl | hz
    · exact hnew y (hin y (by simp [hy])) he.symm
    · exact hdisj z hz y hy he
  · show _ = h.bucketSize.cells.set _ _
    rw [hperm.length_eq, List.length_cons, ofNat_succ]
  · show h.noObjects + 1 = _
    rw [hr.count_eq hb, hperm.length_eq, List.length_cons, Nat.add_right_comm, ofNat_succ]
  · intro y hy
    rcases hsub y hy with rfl | hy
    · rw [hxk]
    · exact hr.placed hb hy
  · exact ((hperm.map RbObj.self).nodup_iff).mpr hxnd
  · intro y hy z hz
    rcases hsub y hy with rfl | hy
    · exact (hnew z (hin z (by simp [hz]))).symm
    · exact hdisj y hy z hz
  · intro y hy
    rcases hsub y hy with rfl | hy
    · exact Nat.lt_of_lt_of_le hlt ((World.le_log _ _).trans ((World.le_log _ _).trans
        (World.le_log _ _))).requests
    · exact Nat.lt_of_lt_of_le (hr.fresh_tree hb hy) hw.requests

/-! ## The end and the start of a table -/

/-- The end of a table whose locks nobody uses. The entries stay allocated. -/
theorem runs_lhiFiniRbtree {Q : Int × HiHandle δ → World → Prop} (hr : RbRep h w ts)
    (hQ : ∀ w', w ≤ w' → (∀ l, users l w'.lockMoves = users l w.lockMoves) →
      ((∀ m, users (.rwlock m) w.lockMoves = 0) → w.Books w' (treeBlocks h) h.baseBlocks) →
      Q (success, { h with tableSize := 0, trees := .null }) w') : Runs E (lhiFiniRbtree h) w Q := by
  have hlen : ts.length = h.tableSize.toNat := by simpa [treeContents] using hr.table.length
  unfold lhiFiniRbtree
  rw [runs_bind]
  refine Runs.imp (runs_forUp (I := fun i _ w' => w ≤ w' ∧
    (∀ l, users l w'.lockMoves = users l w.lockMoves) ∧
    ((∀ m, users (.rwlock m) w.lockMoves = 0) →
      w'.moves = w.moves ++ ((h.trees.cells.take i).filterMap HiRbTree.rwlock).map .give))
    ⟨le_rfl, fun _ => rfl, fun _ => (List.append_nil _).symm⟩ fun i _ w₁ _ hi hI => ?_)
    fun _ w₁ hI => ?_
  · obtain ⟨hw₁, hu₁, hm₁⟩ := hI
    obtain ⟨lock, hroot⟩ := hr.roots i _ (List.getElem?_eq_getElem (show i < ts.length by omega))
    refine runs_bind.mpr (Block.runs_load hr.treesAddr hroot ?_)
    simp only [runs_bind, runs_wrlock, runs_rwUnlock]
    refine runs_lockDestroy fun _ w₂ hw₂ _ hl₂ hm₂ => runs_pure.mpr ?_
    have hpair : ∀ l, users l ((w₁.log (.wrlock lock)).log (.rwUnlock lock)).lockMoves =
        users l w.lockMoves := fun l => by
      rw [World.log_lockMoves, World.log_lockMoves, List.append_assoc, users_append, ← hu₁ l]
      exact add_eq_left.mpr users_pair
    refine ⟨hw₁.trans ((World.le_log _ _).trans ((World.le_log _ _).trans hw₂)),
      fun l => hl₂ ▸ hpair l, fun hidle => ?_⟩
    rw [hm₂ ((hpair _).trans (hidle lock)), List.take_add_one, hroot]
    cases lock <;> simp [hm₁ hidle, LockName.addr]
  · obtain ⟨hw₁, hu₁, hm₁⟩ := hI
    refine runs_bind.mpr (runs_free_log fun w₂ hw₂ _ hm₂ hl₂ => ?_)
    rw [Nat.zero_add, ← hlen, ← hr.treesLength, List.take_length] at hm₁
    exact hQ w₂ (hw₁.trans hw₂) (fun l => hl₂ ▸ hu₁ l) fun hidle =>
      .trans (.gives (hm₁ hidle) (.refl _)) (.gives hm₂ (.refl _))

theorem runs_destroyLocks {trees : List HiRbTree} {Q : Unit → World → Prop}
    (hQ : ∀ w', w ≤ w' → Q () w') :
    Runs E (trees.forM fun t => do
      let _ ← lhiPthreadRwlockDestroy t.rwlock
      pure ()) w Q := by
  induction trees generalizing w with
  | nil => exact hQ w le_rfl
  | cons t trees ih =>
    refine runs_bind.mpr (runs_bind.mpr (runs_lockDestroy fun _ w₁ hw₁ _ _ _ => ?_))
    exact runs_pure.mpr (ih fun w₂ hw₂ => hQ w₂ (hw₁.trans hw₂))

theorem runs_initTrees {n : Nat} {trees : List HiRbTree}
    {Q : Except Int (List HiRbTree) → World → Prop}
    (hfail : ∀ w', w ≤ w' → ¬ w.AllocsSucceed → Q (.error hiErrSystem) w')
    (hok : ∀ (locks : List Ptr) w', w ≤ w' → locks.length = n → w'.moves = w.moves ++ locks.map .take →
      Q (.ok (trees ++ locks.map fun p => ⟨none, some p⟩)) w') :
    Runs E (initTrees n trees) w Q := by
  induction n generalizing w trees with
  | zero =>
    have hdone := hok [] w le_rfl rfl (List.append_nil _).symm
    rwa [List.map_nil, List.append_nil] at hdone
  | succ n ih =>
    rw [initTrees, runs_bind]
    refine runs_lhiPthreadLockInit (fun ret w₁ hw₁ hs => ?_) fun p w₁ hw₁ hm₁ => ?_
    · refine runs_bind.mpr (runs_destroyLocks fun w₂ hw₂ => ?_)
      exact hfail w₂ (hw₁.trans hw₂) hs
    · refine ih (fun w₂ hw₂ hs => hfail w₂ (hw₁.trans hw₂) fun h => hs (h.mono hw₁)) ?_
      intro locks w₂ hw₂ hlen hm₂
      rw [List.append_assoc]
      refine hok (p :: locks) w₂ (hw₁.trans hw₂) (by rw [List.length_cons, hlen]) ?_
      rw [hm₂, hm₁, List.append_assoc]
      rfl

/-- A new table of the tree engine is empty. -/
theorem runs_lhiCreateEngRbtree {Q : Except Int (HiHandle δ) → World → Prop} {u : UserSettings}
    {self : Ptr} {sizes : Fresh} {lock : Ptr}
    (hfail : ∀ w', w ≤ w' → ¬ w.AllocsSucceed → Q (.error hiErrSystem) w')
    (hok : ∀ h' w', w ≤ w' → RbRep h' w' (List.replicate u.tableSize.toNat .nil) →
      h'.toUserSettings = u → w.Books w' (HiHandle.ofSettings u self sizes lock : HiHandle δ).baseBlocks
        (treeBlocks h') → Q (.ok h') w') :
    Runs E (lhiCreateEngRbtree (HiHandle.ofSettings u self sizes lock)) w Q := by
  unfold lhiCreateEngRbtree
  rw [runs_bind]
  refine runs_malloc_refused (fun w₁ hw₁ hr => hfail w₁ hw₁ hr.not_allocsSucceed)
    fun junk w₁ hw₁ _ _ hm₁ => ?_
  rw [runs_bind, runs_mutexLock, runs_bind]
  have hw₁' := hw₁.trans (w₁.le_log (.lock (some lock)))
  refine runs_initTrees (fun w₂ hw₂ hs => ?_) fun locks w₂ hw₂ hlen hm₂ => ?_
  · exact hfail w₂ (hw₁'.trans hw₂) fun h => hs (h.mono hw₁')
  rw [runs_bind, runs_mutexUnlock, runs_pure, List.nil_append]
  generalize hlocks : (locks.map fun p => (⟨none, some p⟩ : HiRbTree)) = cells
  have hcells : ∀ t ∈ cells, t.rbNode = none := by
    rintro t ht
    rw [← hlocks] at ht
    obtain ⟨p, -, rfl⟩ := List.mem_map.mp ht
    rfl
  have hlen' : cells.length = u.tableSize.toNat := by
    rw [← hlocks, List.length_map, hlen]
    rfl
  have hnil : ∀ t ∈ List.replicate u.tableSize.toNat (.nil : ColorTree (RbObj δ)), t = .nil :=
    fun t ht => List.eq_of_mem_replicate ht
  have hrows : (rows (List.replicate u.tableSize.toNat (.nil : ColorTree (RbObj δ)))).flatten = [] := by
    simp [rows, ColorTree.toList]
  refine hok _ _ (hw₁'.trans (hw₂.trans (World.le_log _ _)))
    ⟨⟨by simp [treeContents, HiHandle.ofSettings], ?_⟩, by simp, by simp [hlen'], ?_, ?_, ?_, ?_,
      by simp [HiHandle.ofSettings], ?_, ?_, ?_, ?_⟩ rfl (.trans (.take hm₁) (.takes
        (show _ = _ ++ locks.map Move.take by simpa using hm₂) ?_))
  · intro b l hl x hx
    simp only [treeContents, List.map_replicate, ColorTree.toList, List.map_nil,
      List.getElem?_replicate] at hl
    split at hl
    · cases hl
      cases hx
    · cases hl
  · intro b t ht
    obtain rfl := hnil t (List.mem_of_getElem? ht)
    have hb : b < cells.length := by
      simpa [hlen'] using (List.getElem?_eq_some_iff.mp ht).1
    have hroot : cells[b].rbNode = none := hcells _ (List.getElem_mem hb)
    refine ⟨cells[b].rwlock, (List.getElem?_eq_getElem hb).trans (congrArg some ?_)⟩
    rw [show (addrs (.nil : ColorTree (RbObj δ))).root = none from rfl, ← hroot]
  · intro t ht q hq
    rw [hnil t ht] at hq
    cases hq
  · intro t ht
    rw [hnil t ht]
    exact ⟨rfl, 0, rfl⟩
  · intro t ht x hx
    rw [hnil t ht] at hx
    cases hx
  · simp [HiHandle.ofSettings, ColorTree.toList]
  · rw [hrows]
    rfl
  · rw [hrows]
    exact List.nodup_nil
  · rw [hrows]
    simp
  · have hfilter : cells.filterMap HiRbTree.rwlock = locks := by
      rw [← hlocks, List.filterMap_map]
      exact List.filterMap_some
    rw [treeBlocks, hfilter]
    exact .refl _

end RbRep

end Hashish
