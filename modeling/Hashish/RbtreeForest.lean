import Hashish.Contents
import Hashish.RbtreeBalance
import Hashish.RbtreeEngine

/-!
# The trees of a table in memory

`RbRep h w ts` says that the handle `h` links the red-black trees `ts`, one for each
bucket. The order of the keys plays no part in it. A descent is computed on this
representation: `Path cmp k c` says that the comparisons with `k` lead to the hole of
the context `c`.

* `runs_rbDescend`: a descent ends at a node with the key, or at an empty link.
* `RbRep.update`: a changed tree, with its counter, keeps the representation.
-/

namespace Hashish

open Hashish.Lib

variable {δ : Type} {E : Fault → Prop} {w w' : World}

/-- A stored pair with the address of its `struct lhi_rb_entry`. -/
structure RbObj (δ : Type) extends Stored δ where
  self : Ptr

/-- The tree of addresses. -/
def addrs (t : ColorTree (RbObj δ)) : ColorTree Ptr := t.map RbObj.self

/-- The entries of the trees, in order. -/
def rows (ts : List (ColorTree (RbObj δ))) : List (List (RbObj δ)) := ts.map ColorTree.toList

/-- The contents of the trees. -/
def treeContents (ts : List (ColorTree (RbObj δ))) : List (List (Stored δ)) :=
  ts.map fun t => t.toList.map RbObj.toStored

/-- The nodes in memory link the tree: children, parents and colours are as the tree says. -/
def Linked (nodes : Heap RbNode) (t : ColorTree Ptr) : Prop :=
  ∀ q ∈ t.toList, nodes q = nodeAt t none q

/-- The blocks of a tree entry: its key and itself. -/
def RbObj.blocks (x : RbObj δ) : List Ptr := [x.keyAddr, x.self]

/-- The blocks of the trees of a handle, without their entries. -/
def treeBlocks (h : HiHandle δ) : List Ptr :=
  h.trees.cells.filterMap HiRbTree.rwlock ++ (h.trees.addr.toList ++ h.baseBlocks)

/-- The blocks of the entries of the trees. -/
def entryBlocks (ts : List (ColorTree (RbObj δ))) : List Ptr :=
  (rows ts).flatten.flatMap RbObj.blocks

/-- The handle links the red-black trees `ts`, and counts their entries. -/
structure RbRep (h : HiHandle δ) (w : World) (ts : List (ColorTree (RbObj δ))) : Prop where
  table : Table h.toUserSettings (treeContents ts)
  treesAddr : h.trees.addr ≠ none
  treesLength : h.trees.cells.length = ts.length
  roots : ∀ (b : Nat) (t : ColorTree (RbObj δ)), ts[b]? = some t →
    ∃ lock, h.trees.cells[b]? = some ⟨(addrs t).root, lock⟩
  linked : ∀ t ∈ ts, Linked h.nodes (addrs t)
  redBlack : ∀ t ∈ ts, (addrs t).RedBlack
  entries : ∀ t ∈ ts, ∀ x ∈ t.toList, h.entries x.self = some x.entry
  sizeAddr : h.bucketSize.addr ≠ none
  sizes : h.bucketSize.cells = ts.map fun t => UInt32.ofNat t.toList.length
  count : h.noObjects = UInt32.ofNat (rows ts).flatten.length
  distinct : ((rows ts).flatten.map RbObj.self).Nodup
  fresh : ∀ x ∈ (rows ts).flatten, x.self < w.requests

/-! ## Linked trees -/

/-- A linked tree is its own layout. -/
theorem linked_iff {nodes : Heap RbNode} {t : ColorTree Ptr} :
    Linked nodes t ↔ layout nodes t = ⟨nodes, t.root⟩ := by
  have hcases : ∀ q, (q ∈ t.toList ∧ ∃ n, nodeAt t none q = some n) ∨
      (q ∉ t.toList ∧ nodeAt t none q = none) := by
    intro q
    by_cases hq : q ∈ t.toList
    · cases hn : nodeAt t none q with
      | none => exact absurd hq (nodeAt_eq_none.mp hn)
      | some n => exact .inl ⟨hq, n, rfl⟩
    · exact .inr ⟨hq, nodeAt_eq_none.mpr hq⟩
  constructor
  · intro h
    refine congrArg (RbRoot.mk · t.root) (funext fun q => ?_)
    rcases hcases q with ⟨hq, n, hn⟩ | ⟨hq, hn⟩
    · rw [h q hq, hn, Option.some_or]
    · rw [hn, Option.none_or]
  · intro h q hq
    have hnodes : (nodeAt t none q).or (nodes q) = nodes q := congrFun (congrArg RbRoot.nodes h) q
    rcases hcases q with ⟨-, n, hn⟩ | ⟨hq', -⟩
    · rw [← hnodes, hn, Option.some_or]
    · exact absurd hq hq'

/-- A layout links its tree. -/
theorem linked_layout {M : Heap RbNode} {t : ColorTree Ptr} : Linked (layout M t).nodes t := by
  intro q hq
  cases hn : nodeAt t none q with
  | none => exact absurd hq (nodeAt_eq_none.mp hn)
  | some n => simp [layout, hn]

/-- Outside its tree a layout is what lies below. -/
theorem layout_outside {M : Heap RbNode} {t : ColorTree Ptr} {q : Ptr} (hq : q ∉ t.toList) :
    (layout M t).nodes q = M q := by
  simp [layout, nodeAt_eq_none.mpr hq]

theorem Linked.congr {nodes nodes' : Heap RbNode} {t : ColorTree Ptr} (h : Linked nodes t)
    (hc : ∀ q ∈ t.toList, nodes' q = nodes q) : Linked nodes' t :=
  fun q hq => (hc q hq).trans (h q hq)

/-- The node of a subtree in a linked tree. -/
theorem Linked.node {nodes : Heap RbNode} {k : Ctx Ptr} {c : Color} {l r : ColorTree Ptr} {p : Ptr}
    (h : Linked nodes (k.plug (.node c l p r))) (hnd : (k.plug (.node c l p r)).toList.Nodup) :
    nodes p = some ⟨k.parent, c, r.root, l.root⟩ := by
  have hread := read_layout (M := nodes) hnd
  rw [linked_iff.mp h] at hread
  simp only [RbRoot.read] at hread
  cases hn : nodes p with
  | none => rw [hn] at hread; cases hread
  | some n =>
    rw [hn] at hread
    cases hread
    rfl

/-- The nodes at and below the pointer `p` have the shape, the colours and the child links of the
tree, and each node points back to its parent, the first one to `par`. -/
def Links (nodes : Heap RbNode) : Option Ptr → Option Ptr → ColorTree Ptr → Prop
  | _, p, .nil => p = none
  | par, p, .node c l q r => p = some q ∧ ∃ n, nodes q = some n ∧ n.rbParent = par ∧ n.rbColor = c ∧
      Links nodes (some q) n.rbLeft l ∧ Links nodes (some q) n.rbRight r

theorem links_of_nodeAt {nodes : Heap RbNode} {t : ColorTree Ptr} {par : Option Ptr}
    (h : ∀ q ∈ t.toList, nodes q = nodeAt t par q) (hnd : t.toList.Nodup) :
    Links nodes par t.root t := by
  induction t generalizing par with
  | nil => rfl
  | node c l p r ihl ihr =>
    simp only [ColorTree.toList] at h hnd
    obtain ⟨hl, hpr, hdisj⟩ := List.nodup_append.mp hnd
    obtain ⟨hp, hr⟩ := List.nodup_cons.mp hpr
    refine ⟨rfl, _, by rw [h p (by simp), nodeAt, if_pos rfl], rfl, rfl, ihl (fun q hq => ?_) hl,
      ihr (fun q hq => ?_) hr⟩
    · have hne : q ≠ p := hdisj q hq p List.mem_cons_self
      rw [h q (by simp [hq]), nodeAt, if_neg hne]
      cases hn : nodeAt l (some p) q with
      | none => exact absurd hq (nodeAt_eq_none.mp hn)
      | some n => rfl
    · have hne : q ≠ p := fun he => hp (he ▸ hq)
      have hnl : nodeAt l (some p) q = none :=
        nodeAt_eq_none.mpr fun hl' => hdisj q hl' q (List.mem_cons_of_mem _ hq) rfl
      rw [h q (by simp [hq]), nodeAt, if_neg hne, hnl, Option.none_or]

theorem Linked.links {nodes : Heap RbNode} {t : ColorTree Ptr} (h : Linked nodes t)
    (hnd : t.toList.Nodup) : Links nodes none t.root t :=
  links_of_nodeAt h hnd

theorem addrs_plug (k : Ctx (RbObj δ)) (t : ColorTree (RbObj δ)) :
    addrs (k.plug t) = (k.relabel RbObj.self).plug (addrs t) := Ctx.map_plug _ _ _

@[simp] theorem toList_addrs (t : ColorTree (RbObj δ)) : (addrs t).toList = t.toList.map RbObj.self :=
  ColorTree.toList_map _ _

/-! ## Descents -/

/-- The comparisons with the key `k` lead to the hole of the context. -/
structure Path (cmp : KeyCmp) (k : Key) (c : Ctx (RbObj δ)) : Prop where
  right : ∀ f ∈ c, f.side = .right → cmp k.bytes f.label.key.bytes < 0
  left : ∀ f ∈ c, f.side = .left → 0 < cmp k.bytes f.label.key.bytes

theorem Path.nil {cmp : KeyCmp} {k : Key} : Path cmp k ([] : Ctx (RbObj δ)) :=
  ⟨by simp, by simp⟩

/-- One step of the source: `diff < 0` goes to the right. -/
theorem Path.cons_right {cmp : KeyCmp} {k : Key} {c : Ctx (RbObj δ)} {col : Color} {x : RbObj δ}
    {l : ColorTree (RbObj δ)} (h : Path cmp k c) (hx : cmp k.bytes x.key.bytes < 0) :
    Path cmp k (⟨.right, col, x, l⟩ :: c) := by
  refine ⟨fun f hf hs => ?_, fun f hf hs => ?_⟩
  · rcases List.mem_cons.mp hf with rfl | hf
    · exact hx
    · exact h.right f hf hs
  · rcases List.mem_cons.mp hf with rfl | hf
    · cases hs
    · exact h.left f hf hs

theorem Path.cons_left {cmp : KeyCmp} {k : Key} {c : Ctx (RbObj δ)} {col : Color} {x : RbObj δ}
    {r : ColorTree (RbObj δ)} (h : Path cmp k c) (hx : 0 < cmp k.bytes x.key.bytes) :
    Path cmp k (⟨.left, col, x, r⟩ :: c) := by
  refine ⟨fun f hf hs => ?_, fun f hf hs => ?_⟩
  · rcases List.mem_cons.mp hf with rfl | hf
    · cases hs
    · exact h.right f hf hs
  · rcases List.mem_cons.mp hf with rfl | hf
    · exact hx
    · exact h.left f hf hs

/-- The object a search ends at. -/
def rbFind (cmp : KeyCmp) (k : Key) : ColorTree (RbObj δ) → Option (RbObj δ)
  | .nil => none
  | .node _ l x r =>
    if cmp k.bytes x.key.bytes = 0 then some x
    else if cmp k.bytes x.key.bytes < 0 then rbFind cmp k r
    else rbFind cmp k l

theorem Path.rbFind_plug {cmp : KeyCmp} {k : Key} {c : Ctx (RbObj δ)} (hp : Path cmp k c)
    (t : ColorTree (RbObj δ)) : rbFind cmp k (c.plug t) = rbFind cmp k t := by
  induction c generalizing t with
  | nil => rfl
  | cons f c ih =>
    have hp' : Path cmp k c := ⟨fun g hg => hp.right g (List.mem_cons_of_mem f hg),
      fun g hg => hp.left g (List.mem_cons_of_mem f hg)⟩
    rw [Ctx.plug, ih hp']
    obtain ⟨side, col, x, s⟩ := f
    cases side with
    | left =>
      have hlt : 0 < cmp k.bytes x.key.bytes := hp.left _ List.mem_cons_self rfl
      show rbFind cmp k (.node col t x s) = _
      rw [rbFind, if_neg (by omega), if_neg (by omega)]
    | right =>
      have hlt : cmp k.bytes x.key.bytes < 0 := hp.right _ List.mem_cons_self rfl
      show rbFind cmp k (.node col s x t) = _
      rw [rbFind, if_neg (by omega), if_pos hlt]

/-- A descent follows the comparisons, and ends at a node with the key or at an empty link. -/
theorem runs_rbDescend {h : HiHandle δ} {k : Key} {fuel : Nat} {c : Ctx (RbObj δ)}
    {t : ColorTree (RbObj δ)} {Q : Descent → World → Prop} (hl : Linked h.nodes (addrs (c.plug t)))
    (hnd : (addrs (c.plug t)).toList.Nodup)
    (hent : ∀ x ∈ (c.plug t).toList, h.entries x.self = some x.entry) (hf : t.depth < fuel)
    (hp : Path h.keyCmp k c)
    (hfound : ∀ c' col l x r, c'.plug (.node col l x r) = c.plug t → h.keyCmp.same k x.key →
      Path h.keyCmp k c' → Q (.found x.self) w)
    (hmiss : ∀ c' : Ctx (RbObj δ), c'.plug .nil = c.plug t → Path h.keyCmp k c' →
      Q (.missing (c'.relabel RbObj.self).parent (linkOf (c'.relabel RbObj.self))) w) :
    Runs E (rbDescend h k.bytes fuel (addrs t).root (c.relabel RbObj.self).parent
      (linkOf (c.relabel RbObj.self))) w Q := by
  induction t generalizing fuel c with
  | nil =>
    obtain ⟨fuel, rfl⟩ : ∃ n, fuel = n + 1 := ⟨fuel - 1, by omega⟩
    exact hmiss c rfl hp
  | node col l x r ihl ihr =>
    obtain ⟨fuel, rfl⟩ : ∃ n, fuel = n + 1 := ⟨fuel - 1, by omega⟩
    simp only [ColorTree.depth] at hf
    have hx : x ∈ (c.plug (.node col l x r)).toList := by
      rw [Ctx.toList_plug]
      simp [ColorTree.toList]
    have hnode : h.nodes x.self = some ⟨(c.relabel RbObj.self).parent, col, (addrs r).root,
        (addrs l).root⟩ := by
      rw [addrs_plug] at hl hnd
      exact hl.node hnd
    have hkey : x.entry.key.cells = x.key.bytes := rfl
    show Runs E (rbDescend h k.bytes (fuel + 1) (some x.self) _ _) w Q
    rw [rbDescend]
    refine runs_bind.mpr (runs_deref (hent x hx) ?_)
    rw [hkey]
    by_cases h₀ : h.keyCmp k.bytes x.key.bytes = 0
    · rw [if_pos h₀]
      exact hfound c col l x r rfl h₀ hp
    rw [if_neg h₀]
    refine runs_bind.mpr (runs_deref hnode ?_)
    by_cases h₁ : h.keyCmp k.bytes x.key.bytes < 0
    · rw [if_pos h₁]
      exact ihr (c := ⟨.right, col, x, l⟩ :: c) hl hnd hent (by omega) (hp.cons_right h₁) hfound
        hmiss
    · rw [if_neg h₁]
      exact ihl (c := ⟨.left, col, x, r⟩ :: c) hl hnd hent (by omega) (hp.cons_left (by omega))
        hfound hmiss

/-! ## The representation -/

namespace RbRep

variable {h h' : HiHandle δ} {ts : List (ColorTree (RbObj δ))} {b : Nat} {t : ColorTree (RbObj δ)}

theorem of_requests (hr : RbRep h w ts) (hw : w.requests ≤ w'.requests) : RbRep h w' ts :=
  { hr with fresh := fun x hx => Nat.lt_of_lt_of_le (hr.fresh x hx) hw }

theorem mono (hr : RbRep h w ts) (hw : w ≤ w') : RbRep h w' ts := hr.of_requests hw.requests

theorem rows_set {t' : ColorTree (RbObj δ)} : rows (ts.set b t') = (rows ts).set b t'.toList := by
  rw [rows, rows, List.map_set]

theorem row (hb : ts[b]? = some t) : (rows ts)[b]? = some t.toList := by
  simp [rows, hb]

theorem lt (hr : RbRep h w ts) (hb : ts[b]? = some t) : b < h.trees.cells.length := by
  rw [hr.treesLength]
  exact (List.getElem?_eq_some_iff.mp hb).1

/-- The addresses of a tree do not repeat, and do not occur in other trees. -/
theorem distinct_tree (hr : RbRep h w ts) (hb : ts[b]? = some t) :
    (t.toList.map RbObj.self).Nodup ∧ ((others (rows ts) b).map RbObj.self).Nodup ∧
      ∀ x ∈ t.toList, ∀ y ∈ others (rows ts) b, x.self ≠ y.self := by
  have hnd := (((flatten_perm (row hb)).map RbObj.self).nodup_iff).mp hr.distinct
  rw [List.map_append, List.nodup_append] at hnd
  refine ⟨hnd.1, hnd.2.1, fun x hx y hy => ?_⟩
  exact hnd.2.2 _ (List.mem_map_of_mem hx) _ (List.mem_map_of_mem hy)

theorem nodup_addrs (hr : RbRep h w ts) (hb : ts[b]? = some t) : (addrs t).toList.Nodup := by
  rw [toList_addrs]
  exact (hr.distinct_tree hb).1

theorem fresh_tree (hr : RbRep h w ts) (hb : ts[b]? = some t) {x : RbObj δ} (hx : x ∈ t.toList) :
    x.self < w.requests :=
  hr.fresh x ((flatten_perm (row hb)).mem_iff.mpr (List.mem_append_left _ hx))

theorem length_le (hr : RbRep h w ts) (hb : ts[b]? = some t) : t.toList.length ≤ w.requests := by
  have hnd := (hr.distinct_tree hb).1
  have hlt : ∀ p ∈ t.toList.map RbObj.self, p ∈ List.range w.requests := by
    intro p hp
    obtain ⟨x, hx, rfl⟩ := List.mem_map.mp hp
    exact List.mem_range.mpr (hr.fresh_tree hb hx)
  simpa using (List.subperm_of_subset hnd hlt).length_le

theorem size_of_tree (hr : RbRep h w ts) (hb : ts[b]? = some t) :
    h.bucketSize.cells[b]? = some (UInt32.ofNat t.toList.length) := by
  rw [hr.sizes, List.getElem?_map, hb]
  rfl

theorem size_lt (hr : RbRep h w ts) (hb : ts[b]? = some t) : b < h.bucketSize.cells.length := by
  rw [hr.sizes, List.length_map]
  exact (List.getElem?_eq_some_iff.mp hb).1

theorem count_eq (hr : RbRep h w ts) (hb : ts[b]? = some t) :
    h.noObjects = UInt32.ofNat (t.toList.length + (others (rows ts) b).length) := by
  rw [hr.count, (flatten_perm (row hb)).length_eq, List.length_append]

theorem placed (hr : RbRep h w ts) (hb : ts[b]? = some t) {x : RbObj δ} (hx : x ∈ t.toList) :
    h.toUserSettings.bucket x.key = b :=
  hr.table.placed b (t.toList.map RbObj.toStored) (by simp [treeContents, hb]) x.toStored
    (List.mem_map_of_mem hx)

theorem exists_tree (hr : RbRep h w ts) (hu : h.tableSize ≠ 0) (k : Key) :
    ∃ t, ts[h.toUserSettings.bucket k]? = some t := by
  obtain ⟨m, hm⟩ := hr.table.exists_bucket hu k
  rw [treeContents, List.getElem?_map, Option.map_eq_some_iff] at hm
  obtain ⟨t, ht, -⟩ := hm
  exact ⟨t, ht⟩

/-- The descent from the root of a tree. -/
theorem runs_rbDescend_root {k : Key} {Q : Descent → World → Prop} {fuel : Nat} (hr : RbRep h w ts)
    (hb : ts[b]? = some t) (hfuel : w.requests < fuel)
    (hfound : ∀ c col l x r, t = c.plug (.node col l x r) → h.keyCmp.same k x.key →
      Path h.keyCmp k c → Q (.found x.self) w)
    (hmiss : ∀ c : Ctx (RbObj δ), t = c.plug .nil → Path h.keyCmp k c →
      Q (.missing (c.relabel RbObj.self).parent (linkOf (c.relabel RbObj.self))) w) :
    Runs E (rbDescend h k.bytes fuel (addrs t).root none .root) w Q := by
  have hmem : t ∈ ts := List.mem_of_getElem? hb
  have hdepth : t.depth < fuel :=
    Nat.lt_of_le_of_lt (Nat.le_trans t.depth_le_length (hr.length_le hb)) hfuel
  exact runs_rbDescend (c := []) (hr.linked t hmem) (hr.nodup_addrs hb) (hr.entries t hmem) hdepth
    Path.nil (fun c col l x r he => hfound c col l x r he.symm) fun c he => hmiss c he.symm

/-- The descent in the tree of a bucket. -/
theorem runs_descend {k : Key} {Q : Descent → World → Prop} (hr : RbRep h w ts)
    (hb : ts[b]? = some t)
    (hfound : ∀ c col l x r, t = c.plug (.node col l x r) → h.keyCmp.same k x.key →
      Path h.keyCmp k c → Q (.found x.self) w)
    (hmiss : ∀ c : Ctx (RbObj δ), t = c.plug .nil → Path h.keyCmp k c →
      Q (.missing (c.relabel RbObj.self).parent (linkOf (c.relabel RbObj.self))) w) :
    Runs E (h.descend b k.bytes) w Q := by
  obtain ⟨lock, hroot⟩ := hr.roots b t hb
  unfold HiHandle.descend
  refine runs_bind.mpr (Block.runs_load hr.treesAddr hroot ?_)
  rw [runs_bind, runs_walkBound]
  exact hr.runs_rbDescend_root hb (Nat.lt_succ_self _) hfound hmiss

/-- A handle that differs in the tree `b` only: its nodes, its root, its counter and the total. -/
theorem update (hr : RbRep h w ts) (hb : ts[b]? = some t) {t' : ColorTree (RbObj δ)}
    (lock : Option Ptr) (hu : h'.toUserSettings = h.toUserSettings)
    (hcells : h'.trees.cells = h.trees.cells.set b ⟨(addrs t').root, lock⟩)
    (haddr : h'.trees.addr = h.trees.addr) (hlinked : Linked h'.nodes (addrs t'))
    (hrb : (addrs t').RedBlack)
    (hentries : ∀ x ∈ t'.toList, h'.entries x.self = some x.entry)
    (hframe : ∀ y ∈ others (rows ts) b,
      h'.nodes y.self = h.nodes y.self ∧ h'.entries y.self = h.entries y.self)
    (hsizes : h'.bucketSize.cells = h.bucketSize.cells.set b (UInt32.ofNat t'.toList.length))
    (hsaddr : h'.bucketSize.addr = h.bucketSize.addr)
    (hcount : h'.noObjects = UInt32.ofNat (t'.toList.length + (others (rows ts) b).length))
    (hplaced : ∀ x ∈ t'.toList, h.toUserSettings.bucket x.key = b)
    (hnd : (t'.toList.map RbObj.self).Nodup)
    (hdisj : ∀ x ∈ t'.toList, ∀ y ∈ others (rows ts) b, x.self ≠ y.self)
    (hfresh : ∀ x ∈ t'.toList, x.self < w'.requests) (hw : w ≤ w') :
    RbRep h' w' (ts.set b t') := by
  have hrows : rows (ts.set b t') = (rows ts).set b t'.toList := by
    rw [rows, rows, List.map_set]
  have hperm := flatten_set_perm (row hb) t'.toList
  have hlt := hr.lt hb
  -- A tree of the new table is the changed one, or an old one at another index.
  have htrees : ∀ (m : ColorTree (RbObj δ)), m ∈ ts.set b t' → m = t' ∨
      (m ∈ ts ∧ ∀ x ∈ m.toList, x ∈ others (rows ts) b) := by
    intro m hm
    obtain ⟨c, hc⟩ := List.mem_iff_getElem?.mp hm
    rw [List.getElem?_set] at hc
    split at hc
    · split at hc
      · cases hc
        exact .inl rfl
      · cases hc
    · rename_i hbc
      refine .inr ⟨List.mem_of_getElem? hc, fun x hx => ?_⟩
      exact mem_others (row hc) (Ne.symm hbc) hx
  refine ⟨?_, haddr ▸ hr.treesAddr, by simp [hcells, hr.treesLength], ?_, ?_, ?_, ?_,
    hsaddr ▸ hr.sizeAddr, ?_, ?_, ?_, ?_⟩
  · rw [hu, treeContents, List.map_set]
    refine hr.table.set fun x hx => ?_
    obtain ⟨y, hy, rfl⟩ := List.mem_map.mp hx
    exact hplaced y hy
  · intro c m hm
    rw [hcells]
    rw [List.getElem?_set] at hm ⊢
    split at hm
    · rename_i hbc
      subst hbc
      split at hm
      · cases hm
        exact ⟨lock, by simp [hlt]⟩
      · cases hm
    · rename_i hbc
      rw [if_neg hbc]
      exact hr.roots c m hm
  · intro m hm
    rcases htrees m hm with rfl | ⟨hm, hx⟩
    · exact hlinked
    · refine (hr.linked m hm).congr fun q hq => ?_
      rw [toList_addrs] at hq
      obtain ⟨y, hy, rfl⟩ := List.mem_map.mp hq
      exact (hframe y (hx y hy)).1
  · intro m hm
    rcases htrees m hm with rfl | ⟨hm, -⟩
    · exact hrb
    · exact hr.redBlack m hm
  · intro m hm x hx
    rcases htrees m hm with rfl | ⟨hm, ho⟩
    · exact hentries x hx
    · exact (hframe x (ho x hx)).2.trans (hr.entries m hm x hx)
  · rw [hsizes, hr.sizes, List.map_set]
  · rw [hcount, hrows, hperm.length_eq, List.length_append]
  · rw [hrows, (hperm.map RbObj.self).nodup_iff, List.map_append, List.nodup_append]
    refine ⟨hnd, (hr.distinct_tree hb).2.1, ?_⟩
    intro q hq q' hq'
    obtain ⟨x, hx, rfl⟩ := List.mem_map.mp hq
    obtain ⟨y, hy, rfl⟩ := List.mem_map.mp hq'
    exact hdisj x hx y hy
  · intro x hx
    rw [hrows] at hx
    rcases List.mem_append.mp (hperm.mem_iff.mp hx) with hx | hx
    · exact hfresh x hx
    · exact Nat.lt_of_lt_of_le
        (hr.fresh x ((flatten_perm (row hb)).mem_iff.mpr (List.mem_append_right _ hx))) hw.requests

end RbRep

end Hashish
