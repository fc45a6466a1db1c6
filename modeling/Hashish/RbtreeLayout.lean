import Hashish.Rbtree

/-!
# Trees in memory

`layout M t` is the memory that links the tree `t` and holds `M` elsewhere:
child links, parent links, colours and the root pointer. The steps of the tree
algorithms are then equations between layouts of plugged contexts. A step that
works on a few nodes is computed in `view`, where the nodes in hand are a map of
their own in front of the context.

* `rotate_layout`: a rotation.
* `setColor_layout`: a colour change.
* `link_layout`, `unlink_layout`, `substitute_layout`: a new leaf, the removal of a
  node with at most one child, and the replacement of one node by another.
-/

namespace Hashish

open Hashish.Lib

/-- The node a tree of addresses prescribes at `q`, when the parent of the tree is `par`. -/
def nodeAt : ColorTree Ptr → Option Ptr → Heap RbNode
  | .nil, _, _ => none
  | .node c l p r, par, q =>
    if q = p then some ⟨par, c, r.root, l.root⟩
    else (nodeAt l (some p) q).or (nodeAt r (some p) q)

/-- The node that a frame prescribes, `hole` being the root of the tree in its hole. -/
def frameNode (f : Frame Ptr) (par hole : Option Ptr) : RbNode :=
  (⟨par, f.color, f.sibling.root, f.sibling.root⟩ : RbNode).setChild f.side hole

/-- The nodes of a context. -/
def ctxNodeAt : Ctx Ptr → Option Ptr → Heap RbNode
  | [], _, _ => none
  | f :: k, hole, q =>
    if q = f.label then some (frameNode f (Ctx.parent k) hole)
    else (nodeAt f.sibling (some f.label) q).or (ctxNodeAt k (some f.label) q)

/-- The root pointer over a context. -/
def rootOver : Ctx Ptr → Option Ptr → Option Ptr
  | [], hole => hole
  | f :: k, _ => rootOver k (some f.label)

/-- The memory that links `t`, over the other contents `M`. -/
def layout (M : Heap RbNode) (t : ColorTree Ptr) : RbRoot :=
  ⟨fun q => (nodeAt t none q).or (M q), t.root⟩

/-- The memory with the nodes `x` in front of a context whose hole points to `hole`. -/
def view (M : Heap RbNode) (k : Ctx Ptr) (hole : Option Ptr) (x : Heap RbNode) : RbRoot :=
  ⟨fun q => ((x q).or (ctxNodeAt k hole q)).or (M q), rootOver k hole⟩

/-! ## Prescribed nodes -/

theorem nodeAt_eq_none {t : ColorTree Ptr} {par : Option Ptr} {q : Ptr} :
    nodeAt t par q = none ↔ q ∉ t.toList := by
  induction t generalizing par with
  | nil => simp [nodeAt, ColorTree.toList]
  | node c l p r ihl ihr =>
    by_cases hq : q = p <;> simp [nodeAt, ColorTree.toList, hq, ihl, ihr]

/-- Only the root of a tree depends on the parent. -/
theorem nodeAt_parent {t : ColorTree Ptr} {r s : Option Ptr} {q : Ptr} (h : t.root ≠ some q) :
    nodeAt t r q = nodeAt t s q := by
  cases t with
  | nil => rfl
  | node c l p r =>
    have hq : q ≠ p := fun hq => h (by rw [hq]; rfl)
    simp [nodeAt, hq]

theorem ctxNodeAt_eq_none {k : Ctx Ptr} {hole : Option Ptr} {q : Ptr} :
    ctxNodeAt k hole q = none ↔ q ∉ k.before ∧ q ∉ k.after := by
  induction k generalizing hole with
  | nil => simp [ctxNodeAt, Ctx.before, Ctx.after]
  | cons f k ih =>
    obtain ⟨d, c, a, s⟩ := f
    by_cases hq : q = a
    · cases d <;> simp [ctxNodeAt, Ctx.before, Ctx.after, Frame.before, Frame.after, hq]
    · cases d <;> simp [ctxNodeAt, Ctx.before, Ctx.after, Frame.before, Frame.after, hq, ih,
        nodeAt_eq_none] <;> tauto

theorem rootOver_plug (k : Ctx Ptr) (t : ColorTree Ptr) : rootOver k t.root = (k.plug t).root := by
  induction k generalizing t with
  | nil => rfl
  | cons f k ih =>
    have hf : (f.fill t).root = some f.label := by simp [Frame.fill]
    rw [rootOver, ← hf]
    exact ih _

theorem parent_mem {k : Ctx Ptr} {q : Ptr} (h : k.parent = some q) :
    q ∈ k.before ∨ q ∈ k.after := by
  cases k with
  | nil => cases h
  | cons f k =>
    obtain ⟨d, c, a, s⟩ := f
    cases h
    cases d <;> simp [Ctx.before, Ctx.after, Frame.before, Frame.after]

/-- A layout seen from a hole: the nodes of the subtree in front of the context. -/
theorem layout_plug {M : Heap RbNode} {k : Ctx Ptr} {t : ColorTree Ptr}
    (h : (k.plug t).toList.Nodup) :
    layout M (k.plug t) = view M k t.root (nodeAt t k.parent) := by
  have hnodes : ∀ q, nodeAt (k.plug t) none q =
      (nodeAt t k.parent q).or (ctxNodeAt k t.root q) := by
    intro q
    induction k generalizing t with
    | nil => simp [Ctx.plug, Ctx.parent, ctxNodeAt]
    | cons f k ih =>
      have hfill : ((f.fill t).toList).Nodup := by
        rw [Ctx.plug, Ctx.toList_plug] at h
        exact (List.nodup_append.mp (List.nodup_append.mp h).1).2.1
      rw [Ctx.plug, ih h]
      obtain ⟨d, c, a, s⟩ := f
      by_cases hq : q = a
      · have hn : nodeAt t (some a) q = none := by
          rw [nodeAt_eq_none, hq]
          cases d <;> simp [Frame.fill, ColorTree.branch, ColorTree.toList, List.nodup_append,
            List.nodup_cons] at hfill <;> grind
        cases d <;> simp [Frame.fill, ColorTree.branch, nodeAt, ctxNodeAt, hq, Ctx.parent, frameNode,
          RbNode.setChild, hq ▸ hn]
      · cases d with
        | left => simp [Frame.fill, ColorTree.branch, nodeAt, ctxNodeAt, hq, Ctx.parent,
            ColorTree.root, Option.or_assoc]
        | right =>
          by_cases hs : q ∈ s.toList
          · have hn : nodeAt t (some a) q = none := by
              rw [nodeAt_eq_none]
              simp [Frame.fill, ColorTree.branch, ColorTree.toList, List.nodup_append,
                List.nodup_cons] at hfill
              grind
            simp [Frame.fill, ColorTree.branch, nodeAt, ctxNodeAt, hq, Ctx.parent, ColorTree.root, hn]
          · have hn : nodeAt s (some a) q = none := nodeAt_eq_none.mpr hs
            simp [Frame.fill, ColorTree.branch, nodeAt, ctxNodeAt, hq, Ctx.parent, ColorTree.root, hn]
  simp only [layout, view, rootOver_plug]
  congr 1
  funext q
  rw [hnodes q]

/-! ## Reads and writes in a view -/

section View

variable {M x : Heap RbNode} {k : Ctx Ptr} {hole : Option Ptr} {p : Ptr} {n : RbNode} {v : Option Ptr}

theorem read_view (h : x p = some n) : (view M k hole x).read (some p) = .ok n := by
  simp [RbRoot.read, view, h]

theorem write_view : (view M k hole x).write p n = view M k hole (x.set p (some n)) := by
  simp only [RbRoot.write, view]
  congr 1
  funext q
  by_cases hq : q = p <;> simp [Heap.set, hq]

theorem modify_view {f : RbNode → RbNode} (h : x p = some n) :
    (view M k hole x).modify (some p) f = .ok (view M k hole (x.set p (some (f n)))) := by
  have hn : (view M k hole x).nodes p = some n := by simp [view, h]
  simp only [RbRoot.modify, hn, write_view]

/-- Changing a node outside the tree takes it in hand. -/
theorem modify_outside {f : RbNode → RbNode} (hx : x p = none) (hk : ctxNodeAt k hole p = none)
    (h : M p = some n) : (view M k hole x).modify (some p) f =
      .ok (view M k hole (x.set p (some (f n)))) := by
  have hn : (view M k hole x).nodes p = some n := by simp [view, hx, hk, h]
  simp only [RbRoot.modify, hn, write_view]

/-- Setting the link of the innermost frame. -/
theorem setChild_frame {f : Frame Ptr} {v : Option Ptr} (hole : Option Ptr) (h : x f.label = none) :
    (view M (f :: k) hole x).setChild (some f.label) f.side v =
      .ok (view M (f :: k) v x) := by
  have hn : (view M (f :: k) hole x).nodes f.label = some (frameNode f (Ctx.parent k) hole) := by
    simp [view, h, ctxNodeAt]
  simp only [RbRoot.setChild, RbRoot.modify, hn, RbRoot.write]
  congr 1
  simp only [view, rootOver]
  congr 1
  funext q
  by_cases hq : q = f.label
  · subst hq
    obtain ⟨d, c, a, s⟩ := f
    cases d <;> simp_all [Heap.set, ctxNodeAt, frameNode, RbNode.setChild]
  · simp [Heap.set, hq, ctxNodeAt]

/-- The link from the parent of the hole, whichever side it is on. -/
theorem relink_view {d : Side} {v : Option Ptr} (h : ∀ q, k.parent = some q → x q = none)
    (hs : ∀ f ∈ k.head?, f.sibling.root ≠ some p) :
    (view M k (some p) x).relink k.parent d p v = .ok (view M k v x) := by
  cases k with
  | nil => rfl
  | cons f k =>
    have hx : x f.label = none := h _ rfl
    have hsib : f.sibling.root ≠ some p := hs f (by simp)
    have hread : (view M (f :: k) (some p) x).read (some f.label) =
        .ok (frameNode f (Ctx.parent k) (some p)) := by
      simp [RbRoot.read, view, hx, ctxNodeAt]
    simp only [RbRoot.relink, Ctx.parent_cons, hread]
    rcases Side.eq_or_eq_flip f.side d with rfl | rfl
    · have hc : (frameNode f (Ctx.parent k) (some p)).child f.side = some p := by
        obtain ⟨d, c, a, s⟩ := f
        cases d <;> rfl
      rw [ok_bind, if_pos hc]
      exact setChild_frame _ hx
    · have hc : (frameNode f (Ctx.parent k) (some p)).child f.side.flip ≠ some p := by
        obtain ⟨d, c, a, s⟩ := f
        cases d <;> exact hsib
      rw [ok_bind, if_neg hc, Side.flip_flip]
      exact setChild_frame _ hx

end View

/-! ## Colour changes -/

variable {M : Heap RbNode} {k : Ctx Ptr}

theorem nodeAt_root {l r : ColorTree Ptr} {c : Color} {p : Ptr} {par : Option Ptr} :
    nodeAt (.node c l p r) par p = some ⟨par, c, r.root, l.root⟩ := by simp [nodeAt]

theorem nodup_color {l r : ColorTree Ptr} {c c' : Color} {p : Ptr}
    (h : (k.plug (.node c l p r)).toList.Nodup) : (k.plug (.node c' l p r)).toList.Nodup := by
  rwa [Ctx.toList_plug] at h ⊢

/-- Reading a node of the tree. -/
theorem read_layout {l r : ColorTree Ptr} {c : Color} {p : Ptr}
    (h : (k.plug (.node c l p r)).toList.Nodup) :
    (layout M (k.plug (.node c l p r))).read (some p) =
      .ok ⟨k.parent, c, r.root, l.root⟩ := by
  rw [layout_plug h]
  exact read_view nodeAt_root

theorem setColor_layout {l r : ColorTree Ptr} {c c' : Color} {p : Ptr}
    (h : (k.plug (.node c l p r)).toList.Nodup) :
    (layout M (k.plug (.node c l p r))).setColor (some p) c' =
      .ok (layout M (k.plug (.node c' l p r))) := by
  rw [layout_plug h, layout_plug (nodup_color h)]
  refine (modify_view nodeAt_root).trans (congrArg (fun x => Except.ok (view M k _ x)) ?_)
  funext q
  by_cases hq : q = p <;> simp [Heap.set, nodeAt, hq]

/-! ## Rotations -/

/-- The node with the child `near` on side `d`. -/
def sideNode (d : Side) (par : Option Ptr) (c : Color) (near far : Option Ptr) : RbNode :=
  (⟨par, c, far, far⟩ : RbNode).setChild d near

section SideNode

variable {d : Side} {par : Option Ptr} {c : Color} {near far v : Option Ptr}

@[simp] theorem sideNode_parent : (sideNode d par c near far).rbParent = par := by cases d <;> rfl
@[simp] theorem sideNode_color : (sideNode d par c near far).rbColor = c := by cases d <;> rfl
@[simp] theorem sideNode_child : (sideNode d par c near far).child d = near := by cases d <;> rfl
@[simp] theorem sideNode_child_flip : (sideNode d par c near far).child d.flip = far := by
  cases d <;> rfl
@[simp] theorem sideNode_setChild :
    (sideNode d par c near far).setChild d v = sideNode d par c v far := by cases d <;> rfl
@[simp] theorem sideNode_setChild_flip :
    (sideNode d par c near far).setChild d.flip v = sideNode d par c near v := by cases d <;> rfl
@[simp] theorem sideNode_setParent :
    { sideNode d par c near far with rbParent := v } = sideNode d v c near far := by cases d <;> rfl

theorem sideNode_children (d : Side) (par : Option Ptr) (c : Color) (near far : Option Ptr) :
    (sideNode d par c near far).child .left = near ∧
        (sideNode d par c near far).child .right = far ∨
      (sideNode d par c near far).child .left = far ∧
        (sideNode d par c near far).child .right = near := by
  cases d
  · exact .inl ⟨rfl, rfl⟩
  · exact .inr ⟨rfl, rfl⟩

theorem nodeAt_branch {t s : ColorTree Ptr} {p : Ptr} {r : Option Ptr} :
    nodeAt (.branch d c t p s) r p = some (sideNode d r c t.root s.root) := by
  cases d <;> simp [ColorTree.branch, nodeAt, sideNode, RbNode.setChild]

variable {x : Heap RbNode} {hole : Option Ptr} {p : Ptr}
  (h : x p = some (sideNode d par c near far))
include h

theorem setChild_view : (view M k hole x).setChild (some p) d v =
    .ok (view M k hole (x.set p (some (sideNode d par c v far)))) := by
  simpa [RbRoot.setChild] using modify_view (f := fun n => n.setChild d v) h

theorem setChild_flip_view : (view M k hole x).setChild (some p) d.flip v =
    .ok (view M k hole (x.set p (some (sideNode d par c near v)))) := by
  simpa [RbRoot.setChild] using modify_view (f := fun n => n.setChild d.flip v) h

theorem setParent_view : (view M k hole x).setParent (some p) v =
    .ok (view M k hole (x.set p (some (sideNode d v c near far)))) := by
  refine (modify_view (f := fun n => { n with rbParent := v }) h).trans ?_
  rw [sideNode_setParent]

end SideNode

/-- `rb_set_parent` of the root of a subtree, if it has one. -/
theorem setParentIf_view {x : Heap RbNode} {r s : Option Ptr} {t : ColorTree Ptr} (hole : Option Ptr)
    (h : ∀ q, t.root = some q → x q = nodeAt t r q) :
    (view M k hole x).setParentIf t.root s = .ok (view M k hole
      fun q => if t.root = some q then nodeAt t s q else x q) := by
  cases t with
  | nil => simp [RbRoot.setParentIf, ColorTree.root]
  | node c tl p tr =>
    have hx : x p = some ⟨r, c, tr.root, tl.root⟩ := (h p rfl).trans nodeAt_root
    refine (modify_view hx).trans (congrArg (fun x => Except.ok (view M k hole x)) ?_)
    funext q
    by_cases hq : q = p
    · subst hq
      simp [Heap.set, ColorTree.root, nodeAt_root]
    · simp [Heap.set, ColorTree.root, hq, Ne.symm hq]

theorem rotate_toList {d : Side} {f g m n : Color} {a b e : ColorTree Ptr} {x y : Ptr} :
    (ColorTree.branch d g (ColorTree.branch d f a x b) y e).toList =
      (ColorTree.branch d m a x (ColorTree.branch d n b y e)).toList := by
  cases d <;> simp [ColorTree.branch, ColorTree.toList]

/-- Nothing in the hole of a context without repetitions occurs in the context. -/
theorem not_mem_ctx {t : ColorTree Ptr} {q : Ptr} (h : (k.plug t).toList.Nodup) (hq : q ∈ t.toList) :
    q ∉ k.before ∧ q ∉ k.after := by
  rw [Ctx.toList_plug, List.nodup_append, List.nodup_append] at h
  exact ⟨fun hb => h.1.2.2 q hb q hq rfl, fun ha => h.2.2 q (by simp [hq]) q ha rfl⟩

theorem sibling_ne {t : ColorTree Ptr} {q : Ptr} (h : (k.plug t).toList.Nodup) (hq : q ∈ t.toList) :
    ∀ f ∈ k.head?, f.sibling.root ≠ some q := by
  cases k with
  | nil => simp
  | cons f k =>
    intro g hg hr
    cases hg
    have hm : q ∈ f.sibling.toList := ColorTree.root_mem hr
    have := not_mem_ctx h hq
    obtain ⟨d, c, a, s⟩ := f
    cases d <;> simp_all [Ctx.before, Ctx.after, Frame.before, Frame.after]

theorem parent_not_mem {t : ColorTree Ptr} {q : Ptr} (h : (k.plug t).toList.Nodup)
    (hq : k.parent = some q) : q ∉ t.toList := fun hm =>
  (parent_mem hq).elim (not_mem_ctx h hm).1 (not_mem_ctx h hm).2

/-- A rotation at a node that has a child on the side opposite to `d`. -/
theorem rotate_layout {d : Side} {f g : Color} {a b e : ColorTree Ptr} {x y : Ptr}
    (h : (k.plug (.branch d f a x (.branch d g b y e))).toList.Nodup) :
    rbRotate d (layout M (k.plug (.branch d f a x (.branch d g b y e)))) (some x) =
      .ok (layout M (k.plug (.branch d g (.branch d f a x b) y e))) := by
  have hnd : (ColorTree.branch d f a x (.branch d g b y e)).toList.Nodup := by
    rw [Ctx.toList_plug] at h
    exact (List.nodup_append.mp (List.nodup_append.mp h).1).2.1
  have h' : (k.plug (.branch d g (.branch d f a x b) y e)).toList.Nodup := by
    rwa [Ctx.toList_plug, rotate_toList, ← Ctx.toList_plug]
  have hxt : x ∈ (ColorTree.branch d f a x (.branch d g b y e)).toList := by
    cases d <;> simp [ColorTree.branch, ColorTree.toList]
  obtain ⟨hxy, hxa, hxe, hya, hye, hb⟩ : x ≠ y ∧ x ∉ a.toList ∧ x ∉ e.toList ∧
      y ∉ a.toList ∧ y ∉ e.toList ∧
      ∀ q ∈ b.toList, q ≠ x ∧ q ≠ y ∧ q ∉ a.toList ∧ q ∉ e.toList := by
    cases d <;>
      simp [ColorTree.branch, ColorTree.toList, List.nodup_append, List.nodup_cons] at hnd <;> grind
  have hbr : ∀ q, b.root = some q → q ≠ x ∧ q ≠ y ∧ q ∉ a.toList ∧ q ∉ e.toList :=
    fun q hq => hb q (ColorTree.root_mem hq)
  -- The nodes in hand after each write, `x₀` being the tree before the rotation.
  let x₀ := nodeAt (.branch d f a x (.branch d g b y e)) k.parent
  let x₁ := x₀.set x (some (sideNode d k.parent f a.root b.root))
  let x₂ : Heap RbNode := fun q => if b.root = some q then nodeAt b (some x) q else x₁ q
  let x₃ := x₂.set y (some (sideNode d (some x) g (some x) e.root))
  let x₄ := x₃.set y (some (sideNode d k.parent g (some x) e.root))
  let x₅ := x₄.set x (some (sideNode d (some y) f a.root b.root))
  have hX : x₀ x = some (sideNode d k.parent f a.root (some y)) := by
    simpa using nodeAt_branch (s := ColorTree.branch d g b y e)
  have hY : x₀ y = some (sideNode d (some x) g b.root e.root) := by
    have hy := nodeAt_branch (d := d) (r := some x) (c := g) (p := y) (t := b) (s := e)
    cases d <;> simpa [x₀, ColorTree.branch, nodeAt, hxy.symm, nodeAt_eq_none.mpr hya] using hy
  have hY₂ : x₂ y = x₀ y := by
    have : b.root ≠ some y := fun hr => (hbr y hr).2.1 rfl
    simp [x₂, x₁, this, Heap.set, hxy.symm]
  have hX₄ : x₄ x = some (sideNode d k.parent f a.root b.root) := by
    have : b.root ≠ some x := fun hr => (hbr x hr).1 rfl
    simp [x₄, x₃, x₂, x₁, this, Heap.set, hxy]
  have hsub : ∀ q, b.root = some q → x₁ q = nodeAt b (some y) q := by
    intro q hq
    obtain ⟨hqx, hqy, hqa, hqe⟩ := hbr q hq
    cases d <;> simp [x₁, x₀, Heap.set, hqx, hqy, ColorTree.branch, nodeAt, nodeAt_eq_none.mpr hqa,
      nodeAt_eq_none.mpr hqe]
  have hpar : ∀ q, k.parent = some q → x₄ q = none := by
    intro q hq
    have hqt := parent_not_mem h hq
    have hq₀ : x₀ q = none := nodeAt_eq_none.mpr hqt
    have hqb : b.root ≠ some q := fun hr => hqt (by
      have := ColorTree.root_mem hr
      cases d <;> simp [ColorTree.branch, ColorTree.toList, this])
    have hqxy : q ≠ x ∧ q ≠ y := by
      cases d <;> simp [ColorTree.branch, ColorTree.toList] at hqt <;> tauto
    simp [x₄, x₃, x₂, x₁, Heap.set, hqxy, hqb, hq₀]
  have hfinal : x₅ = nodeAt (.branch d g (.branch d f a x b) y e) k.parent := by
    funext q
    by_cases hqx : q = x
    · have hx := nodeAt_branch (d := d) (r := some y) (c := f) (p := x) (t := a) (s := b)
      rw [hqx, show x₅ x = some (sideNode d (some y) f a.root b.root) from Heap.set_same _ _ _,
        ← hx]
      cases d <;> simp [ColorTree.branch, nodeAt, hxy, nodeAt_eq_none.mpr hxe]
    by_cases hqy : q = y
    · rw [hqy, nodeAt_branch]
      simp [x₅, x₄, Heap.set, hxy.symm]
    have hx₅ : x₅ q = x₂ q := by simp [x₅, x₄, x₃, Heap.set, hqx, hqy]
    rw [hx₅]
    by_cases hqb : b.root = some q
    · obtain ⟨-, -, hqa, hqe⟩ := hbr q hqb
      cases d <;> simp [x₂, hqb, ColorTree.branch, nodeAt, hqx, hqy, nodeAt_eq_none.mpr hqa,
        nodeAt_eq_none.mpr hqe]
    · have hbq := nodeAt_parent (r := some y) (s := some x) hqb
      cases d <;> simp [x₂, x₁, x₀, Heap.set, hqb, ColorTree.branch, nodeAt, hqx, hqy, hbq,
        Option.or_assoc]
  rw [layout_plug h, layout_plug h']
  rw [ColorTree.root_branch, ColorTree.root_branch, ← hfinal]
  show rbRotate d (view M k (some x) x₀) (some x) = .ok (view M k (some y) x₅)
  have s₁ : (view M k (some x) x₀).setChild (some x) d.flip b.root =
      .ok (view M k (some x) x₁) := setChild_flip_view hX
  have s₂ : (view M k (some x) x₁).setParentIf b.root (some x) =
      .ok (view M k (some x) x₂) := setParentIf_view _ hsub
  have s₃ : (view M k (some x) x₂).setChild (some y) d (some x) =
      .ok (view M k (some x) x₃) := setChild_view (hY₂.trans hY)
  have s₄ : (view M k (some x) x₃).setParent (some y) k.parent =
      .ok (view M k (some x) x₄) := setParent_view (Heap.set_same _ _ _)
  have s₅ : (view M k (some x) x₄).relink k.parent d x (some y) =
      .ok (view M k (some y) x₄) := relink_view hpar (sibling_ne h hxt)
  have s₆ : (view M k (some y) x₄).setParent (some x) (some y) =
      .ok (view M k (some y) x₅) := setParent_view hX₄
  simp only [rbRotate, read_view hX, ok_bind, sideNode_child_flip, sideNode_parent, read_view hY,
    sideNode_child, s₁, s₂, s₃, s₄, s₅, s₆]

/-! ## Linking and unlinking -/

/-- Where the link to the hole of a context lies. -/
def linkOf : Ctx Ptr → RbLink
  | [] => .root
  | f :: _ => .child f.label f.side

/-- `rb_link_node` puts a red leaf into an empty hole. -/
theorem link_layout {p : Ptr} (h : (k.plug (.node .red .nil p .nil)).toList.Nodup) :
    rbLinkNode (layout M (k.plug .nil)) p k.parent (linkOf k) =
      .ok (layout M (k.plug (.node .red .nil p .nil))) := by
  have hnil : (k.plug .nil).toList.Nodup := by
    rw [Ctx.toList_plug] at h ⊢
    refine List.Nodup.sublist ?_ h
    simp [ColorTree.toList]
  have hleaf : nodeAt (.node .red .nil p .nil) k.parent =
      (nodeAt .nil k.parent).set p (some ⟨k.parent, .red, none, none⟩) := by
    funext q
    by_cases hq : q = p <;> simp [nodeAt, Heap.set, hq, ColorTree.root]
  rw [layout_plug hnil, layout_plug h, hleaf]
  simp only [rbLinkNode, write_view]
  cases k with
  | nil => rfl
  | cons f k =>
    refine setChild_frame _ ?_
    rw [Heap.set_other _ _ fun hp => ?_]
    · rfl
    · exact parent_not_mem (k := f :: k) h rfl (by rw [hp]; simp [ColorTree.toList])

/-- A node with at most one child hands its parent to the child: all but the link to the node is
then as if the node were gone. Outside the tree that remains, the node keeps its contents. -/
theorem detach_view {d : Side} {c : Color} {p : Ptr} {t : ColorTree Ptr}
    (h : (k.plug (.branch d c .nil p t)).toList.Nodup) :
    (layout M (k.plug (.branch d c .nil p t))).setParentIf t.root k.parent =
      .ok (view (M.set p (some (sideNode d k.parent c none t.root))) k (some p)
        (nodeAt t k.parent)) := by
  have hpt : p ∈ (ColorTree.branch d c .nil p t).toList := by
    cases d <;> simp [ColorTree.branch, ColorTree.toList]
  have hnt : p ∉ t.toList := by
    rw [Ctx.toList_plug] at h
    have := (List.nodup_append.mp (List.nodup_append.mp h).1).2.1
    cases d <;>
      simp [ColorTree.branch, ColorTree.toList, List.nodup_append, List.nodup_cons] at this <;> grind
  have hroot : t.root ≠ some p := fun hr => hnt (ColorTree.root_mem hr)
  have hx : ∀ q, q ≠ p → nodeAt (.branch d c .nil p t) k.parent q = nodeAt t (some p) q := by
    intro q hq
    cases d <;> simp [ColorTree.branch, nodeAt, hq]
  rw [layout_plug h, ColorTree.root_branch,
    setParentIf_view (r := some p) _ fun q hq => hx q fun he => hroot (he ▸ hq)]
  simp only [view]
  congr 2
  funext q
  by_cases hq : q = p
  · have hc : ctxNodeAt k (some p) p = none := ctxNodeAt_eq_none.mpr (not_mem_ctx h hpt)
    rw [hq, if_neg hroot, nodeAt_branch, nodeAt_eq_none.mpr hnt, hc, Heap.set_same]
    rfl
  · rw [Heap.set_other _ _ hq, hx q hq]
    by_cases hr : t.root = some q
    · rw [if_pos hr]
    · rw [if_neg hr, nodeAt_parent hr]

theorem nodup_detach {d : Side} {c : Color} {p : Ptr} {t : ColorTree Ptr}
    (h : (k.plug (.branch d c .nil p t)).toList.Nodup) : (k.plug t).toList.Nodup := by
  rw [Ctx.toList_plug] at h ⊢
  refine List.Nodup.sublist ?_ h
  cases d <;> simp [ColorTree.branch, ColorTree.toList]

theorem nodup_substitute {c : Color} {l r : ColorTree Ptr} {p s : Ptr}
    (h : (k.plug (.node c l p r)).toList.Nodup) (hs : s ∉ (k.plug (.node c l p r)).toList) :
    (k.plug (.node c l s r)).toList.Nodup := by
  rw [Ctx.toList_plug] at h hs ⊢
  simp [ColorTree.toList, List.nodup_append, List.nodup_cons] at h hs ⊢
  grind

/-- One node takes over the place, the colour and the children of another. -/
theorem substitute_layout {c : Color} {l r : ColorTree Ptr} {p s : Ptr} {m : RbNode}
    (h : (k.plug (.node c l p r)).toList.Nodup) (hs : s ∉ (k.plug (.node c l p r)).toList)
    (hm : M s = some m) (hl : l ≠ .nil) :
    ∃ s₁ s₂ s₃, (layout M (k.plug (.node c l p r))).modify (some s)
        (fun _ => ⟨k.parent, c, r.root, l.root⟩) = .ok s₁ ∧
      s₁.relink k.parent .left p (some s) = .ok s₂ ∧
      s₂.setParent l.root (some s) = .ok s₃ ∧
      s₃.setParentIf r.root (some s) = .ok
        (layout (M.set p (some ⟨k.parent, c, r.root, l.root⟩)) (k.plug (.node c l s r))) := by
  have hctx := fun q (hq : q ∈ (ColorTree.node c l p r).toList) => not_mem_ctx h hq
  have hpt : p ∈ (ColorTree.node c l p r).toList := by simp [ColorTree.toList]
  have hnd := h
  have h' := nodup_substitute h hs
  rw [Ctx.toList_plug] at hnd hs
  simp only [List.mem_append, not_or] at hs
  obtain ⟨⟨hsb, hst⟩, hsa⟩ := hs
  replace hnd := (List.nodup_append.mp (List.nodup_append.mp hnd).1).2.1
  simp [ColorTree.toList, List.nodup_append, List.nodup_cons] at hnd hst
  obtain ⟨hndl, ⟨hpr, hndr⟩, hpl, hlr⟩ : l.toList.Nodup ∧ (p ∉ r.toList ∧ r.toList.Nodup) ∧
      p ∉ l.toList ∧ ∀ q ∈ l.toList, q ∉ r.toList := by grind
  obtain ⟨hsl, hsp, hsr⟩ := hst
  have hlroot : ∀ q, l.root = some q → q ∈ l.toList := fun q => ColorTree.root_mem
  have hrroot : ∀ q, r.root = some q → q ∈ r.toList := fun q => ColorTree.root_mem
  let node : RbNode := ⟨k.parent, c, r.root, l.root⟩
  let x₀ := nodeAt (.node c l p r) k.parent
  let x₁ := x₀.set s (some node)
  let x₂ : Heap RbNode := fun q => if l.root = some q then nodeAt l (some s) q else x₁ q
  let x₃ : Heap RbNode := fun q => if r.root = some q then nodeAt r (some s) q else x₂ q
  have hx₀ : x₀ s = none := nodeAt_eq_none.mpr (by simp [ColorTree.toList, hsl, hsp, hsr])
  have hpar : ∀ q, k.parent = some q → x₁ q = none := by
    intro q hq
    have hqs : q ≠ s := fun he => (parent_mem hq).elim (he ▸ hsb) (he ▸ hsa)
    exact (Heap.set_other _ _ hqs).trans (nodeAt_eq_none.mpr (parent_not_mem h hq))
  have hx₁l : ∀ q, l.root = some q → x₁ q = nodeAt l (some p) q := by
    intro q hq
    have hql := hlroot q hq
    have hqr : nodeAt r (some p) q = none := nodeAt_eq_none.mpr (hlr q hql)
    have hqs : q ≠ s := fun he => hsl (he ▸ hql)
    have hqp : q ≠ p := fun he => hpl (he ▸ hql)
    simp [x₁, x₀, Heap.set, hqs, nodeAt, hqp, hqr]
  have hx₂r : ∀ q, r.root = some q → x₂ q = nodeAt r (some p) q := by
    intro q hq
    have hqr := hrroot q hq
    have hql : q ∉ l.toList := fun hql => hlr q hql hqr
    have hqs : q ≠ s := fun he => hsr (he ▸ hqr)
    have hqp : q ≠ p := fun he => hpr (he ▸ hqr)
    have hlq : l.root ≠ some q := fun he => hql (hlroot q he)
    simp [x₂, x₁, x₀, Heap.set, hlq, hqs, nodeAt, hqp, nodeAt_eq_none.mpr hql]
  have hk : ctxNodeAt k (some p) s = none := ctxNodeAt_eq_none.mpr ⟨hsb, hsa⟩
  refine ⟨view M k (some p) x₁, view M k (some s) x₁, view M k (some s) x₂, ?_, ?_, ?_, ?_⟩
  · rw [layout_plug h]
    exact modify_outside hx₀ hk hm
  · exact relink_view hpar (sibling_ne h hpt)
  · obtain ⟨q, hq⟩ : ∃ q, l.root = some q := by
      cases l with
      | nil => exact absurd rfl hl
      | node c l a r => exact ⟨a, rfl⟩
    have := setParentIf_view (M := M) (k := k) (s := some s) (some s) hx₁l
    rw [hq] at this ⊢
    simpa [RbRoot.setParentIf, x₂, hq] using this
  · rw [setParentIf_view _ hx₂r, layout_plug h']
    simp only [view, ColorTree.root_node]
    congr 2
    funext q
    by_cases hqs : q = s
    · have h₁ : r.root ≠ some s := fun he => hsr (hrroot s he)
      have h₂ : l.root ≠ some s := fun he => hsl (hlroot s he)
      simp [hqs, h₁, x₂, h₂, x₁, nodeAt_root, node]
    by_cases hqp : q = p
    · have h₁ : r.root ≠ some p := fun he => hpr (hrroot p he)
      have h₂ : l.root ≠ some p := fun he => hpl (hlroot p he)
      have hc : ctxNodeAt k (some s) p = none := ctxNodeAt_eq_none.mpr (hctx p hpt)
      simp [hqp, h₁, h₂, x₂, x₁, x₀, Heap.set, Ne.symm hsp, nodeAt, hc,
        nodeAt_eq_none.mpr hpl, nodeAt_eq_none.mpr hpr]
    rw [Heap.set_other _ _ hqp]
    by_cases hqr : r.root = some q
    · have hql : q ∉ l.toList := fun hql => hlr q hql (hrroot q hqr)
      simp [hqr, nodeAt, hqs, nodeAt_eq_none.mpr hql]
    by_cases hql : l.root = some q
    · have hqr' : nodeAt r (some s) q = none := nodeAt_eq_none.mpr (hlr q (hlroot q hql))
      simp [hqr, x₂, hql, nodeAt, hqs, hqr']
    · rw [nodeAt, if_neg hqs, nodeAt_parent (s := some p) hqr, nodeAt_parent (s := some p) hql]
      simp [hqr, x₂, hql, x₁, x₀, Heap.set, hqs, nodeAt, hqp]

end Hashish
