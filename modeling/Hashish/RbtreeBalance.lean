import Hashish.RbtreeLayout

/-!
# The fix-up loops keep red-black trees

`rb_insert_color` and `rb_erase` on the memory of a tree. Both loops carry a
context whose hole is the only place where the colour rules may be violated; the
hole moves towards the root. No step reads through a null pointer, the loops end
within the length of the context, and the in-order list of the nodes stays as it
is, up to the node that is linked or taken out.

* `rbInsertColor_layout`: after a red leaf was linked.
* `rbErase_layout`: the removal of any node.
-/

namespace Hashish

open Hashish.Lib

variable {M : Heap RbNode} {k : Ctx Ptr}

/-! ## Moving the focus -/

theorem plug_near (d : Side) (c : Color) (a : Ptr) (t s : ColorTree Ptr) (k : Ctx Ptr) :
    Ctx.plug (⟨d, c, a, s⟩ :: k) t = k.plug (.branch d c t a s) := rfl

theorem plug_far (d : Side) (c : Color) (a : Ptr) (t s : ColorTree Ptr) (k : Ctx Ptr) :
    Ctx.plug (⟨d.flip, c, a, t⟩ :: k) s = k.plug (.branch d c t a s) := by
  rw [plug_near, ColorTree.branch_flip]

theorem toList_plug_congr {t t' : ColorTree Ptr} (h : t.toList = t'.toList) :
    (k.plug t).toList = (k.plug t').toList := by
  rw [Ctx.toList_plug, Ctx.toList_plug, h]

theorem toList_branch_congr {d : Side} {c c' : Color} {a a' b b' : ColorTree Ptr} {x : Ptr}
    (ha : a.toList = a'.toList) (hb : b.toList = b'.toList) :
    (ColorTree.branch d c a x b).toList = (ColorTree.branch d c' a' x b').toList := by
  cases d <;> simp [ColorTree.branch, ColorTree.toList, ha, hb]

theorem nodup_congr {t t' : ColorTree Ptr} (h : (k.plug t).toList.Nodup) (ht : t.toList = t'.toList) :
    (k.plug t').toList.Nodup := by
  rwa [← toList_plug_congr ht]

section Branch

variable {d : Side} {c e : Color} {a b : ColorTree Ptr} {p : Ptr}
  (h : (k.plug (.branch d c a p b)).toList.Nodup)
include h

theorem read_branch : (layout M (k.plug (.branch d c a p b))).read (some p) =
    .ok (sideNode d k.parent c a.root b.root) := by
  rw [layout_plug h]
  exact read_view nodeAt_branch

theorem setColor_branch : (layout M (k.plug (.branch d c a p b))).setColor (some p) e =
    .ok (layout M (k.plug (.branch d e a p b))) := by
  cases d <;> exact setColor_layout h

/-- The two children of a node are different. -/
theorem children_ne {q : Ptr} (hq : a.root = some q) : b.root ≠ some q := by
  intro hbq
  have ha := ColorTree.root_mem hq
  have hb := ColorTree.root_mem hbq
  rw [Ctx.toList_plug] at h
  have := (List.nodup_append.mp (List.nodup_append.mp h).1).2.1
  cases d <;>
    simp [ColorTree.branch, ColorTree.toList, List.nodup_append, List.nodup_cons] at this <;> grind

/-- A node tells the sides of its children apart. -/
theorem child_left_iff {q : Ptr} (hq : a.root = some q) :
    ((sideNode d k.parent c a.root b.root).child .left = some q) ↔ d = .left := by
  have hb := children_ne h hq
  cases d with
  | left => simpa [sideNode, RbNode.setChild, RbNode.child] using hq
  | right => simpa [sideNode, RbNode.setChild, RbNode.child] using hb

end Branch

theorem isBlack_layout {t : ColorTree Ptr} (h : (k.plug t).toList.Nodup) :
    (layout M (k.plug t)).isBlack t.root = .ok (t.color = .black) := by
  cases t with
  | nil => simp [RbRoot.isBlack, ColorTree.root, ColorTree.color]
  | node c l a r =>
    simp only [ColorTree.root_node, RbRoot.isBlack, read_layout h, ok_bind]
    rfl

/-- A rotation away from `d`, at a node that has a child on side `d`. -/
theorem rotate_flip_layout {d : Side} {c₁ c₂ : Color} {a b e : ColorTree Ptr} {x y : Ptr}
    (h : (k.plug (.branch d c₁ (.branch d c₂ e y b) x a)).toList.Nodup) :
    rbRotate d.flip (layout M (k.plug (.branch d c₁ (.branch d c₂ e y b) x a))) (some x) =
      .ok (layout M (k.plug (.branch d c₂ e y (.branch d c₁ b x a)))) := by
  have := rotate_layout (M := M) (k := k) (d := d.flip) (f := c₁) (g := c₂)
    (a := a) (b := b) (e := e) (x := x) (y := y)
  simp only [ColorTree.branch_flip] at this
  exact this h

/-! ## Insertion -/

/-- The rotations at the end of an iteration put a black node with two red children in the place
of the grandparent. The child on side `d` is `node` of the next iteration. -/
theorem rbInsertRotate_layout {d' d : Side} {t s u : ColorTree Ptr} {x p g : Ptr}
    (h : (k.plug (.branch d .black (.branch d' .red t p s) g u)).toList.Nodup)
    (hx : t.root = some x) (ht : t.color = .red) {n : Nat} (htn : t.RB n) (hsn : s.RB n)
    (hun : u.RB n) (hs : s.color = .black) (hu : u.color = .black) (hd : d' = d ∨ d' = d.flip) :
    ∃ a b y q, rbInsertRotate d
        (layout M (k.plug (.branch d .black (.branch d' .red t p s) g u))) x p g =
          .ok (layout M (k.plug (.branch d .black a q b)), y) ∧
      a.root = some y ∧ (ColorTree.branch d .black a q b).RB (n + 1) ∧
      (ColorTree.branch d .black a q b).toList =
        (ColorTree.branch d .black (.branch d' .red t p s) g u).toList := by
  have hp := read_branch (M := M) (k := ⟨d, .black, g, u⟩ :: k) h
  have hsx := children_ne (k := ⟨d, .black, g, u⟩ :: k) h hx
  rw [plug_near] at hp
  rcases hd with rfl | rfl
  · -- `node` is an outer grandchild: one rotation at the grandparent.
    have h₁ := setColor_branch (M := M) (k := ⟨d', .black, g, u⟩ :: k) (e := .black) h
    have e₁ : (k.plug (.branch d' .black (.branch d' .black t p s) g u)).toList.Nodup := by
      rwa [toList_plug_congr (toList_branch_congr (toList_branch_congr rfl rfl) rfl)]
    have h₂ := setColor_branch (M := M) (e := .red) e₁
    have e₂ : (k.plug (.branch d' .red (.branch d' .black t p s) g u)).toList.Nodup := by
      rwa [toList_plug_congr (toList_branch_congr (toList_branch_congr rfl rfl) rfl)]
    have h₃ := rotate_flip_layout (M := M) e₂
    refine ⟨t, .branch d' .red s g u, x, p, ?_, hx, ?_, rotate_toList.symm⟩
    · simp only [plug_near] at h₁
      simp only [rbInsertRotate, hp, ok_bind, sideNode_child_flip, if_neg hsx, h₁, h₂, h₃,
        pure, Except.pure]
    · exact ColorTree.rb_black.mpr ⟨htn, ColorTree.rb_red.mpr ⟨hs, hu, hsn, hun⟩⟩
  · -- `node` is an inner grandchild: a rotation at the parent makes it the parent.
    obtain ⟨tl, tr, rfl⟩ : ∃ tl tr, t = .branch d .red tl x tr := by
      cases t with
      | nil => cases hx
      | node c l y r =>
        cases hx
        cases ht
        exact ColorTree.eq_branch d _ _ _ _
    obtain ⟨htl, htr, htln, htrn⟩ := ColorTree.rb_red.mp htn
    rw [ColorTree.branch_flip] at h hp ⊢
    have h₁ := rotate_layout (M := M) (k := ⟨d, .black, g, u⟩ :: k) h
    have e₁ : (k.plug (.branch d .black (.branch d .red (.branch d .red s p tl) x tr) g u)
        ).toList.Nodup := by
      rwa [toList_plug_congr (toList_branch_congr rotate_toList rfl)]
    have h₂ := setColor_branch (M := M) (k := ⟨d, .black, g, u⟩ :: k) (e := .black) e₁
    have e₂ : (k.plug (.branch d .black (.branch d .black (.branch d .red s p tl) x tr) g u)
        ).toList.Nodup := by
      rwa [toList_plug_congr (toList_branch_congr rotate_toList rfl)]
    have h₃ := setColor_branch (M := M) (e := .red) e₂
    have e₃ : (k.plug (.branch d .red (.branch d .black (.branch d .red s p tl) x tr) g u)
        ).toList.Nodup := by
      rwa [toList_plug_congr (toList_branch_congr rotate_toList rfl)]
    have h₄ := rotate_flip_layout (M := M) e₃
    refine ⟨.branch d .red s p tl, .branch d .red tr g u, p, x, ?_, by simp, ?_, ?_⟩
    · simp only [plug_near] at h₁ h₂
      have hc : (sideNode d.flip (some g) .red (ColorTree.branch d .red tl x tr).root s.root).child
          d.flip = some x := by simp
      rw [Ctx.parent_cons] at hp
      simp only [rbInsertRotate, hp, ok_bind, hc, if_true, h₁, h₂, h₃, h₄, pure, Except.pure]
    · exact ColorTree.rb_black.mpr ⟨ColorTree.rb_red.mpr ⟨hs, htl, hsn, htln⟩,
        ColorTree.rb_red.mpr ⟨htr, hu, htrn, hun⟩⟩
    · rw [← rotate_toList (f := .red) (g := .black)]
      exact toList_branch_congr rotate_toList rfl

/-- The node at the root of a tree, in any context. -/
theorem read_root {t : ColorTree Ptr} {x : Ptr} (h : (k.plug t).toList.Nodup) (hx : t.root = some x) :
    ∃ n, (layout M (k.plug t)).read (some x) = .ok n ∧ n.rbParent = k.parent ∧
      n.rbColor = t.color := by
  cases t with
  | nil => cases hx
  | node c l a r =>
    cases hx
    exact ⟨_, read_layout h, rfl, rfl⟩

theorem setColor_root {t : ColorTree Ptr} {x : Ptr} (h : (k.plug t).toList.Nodup)
    (hx : t.root = some x) :
    (layout M (k.plug t)).setColor (some x) .black = .ok (layout M (k.plug t.blacken)) := by
  cases t with
  | nil => cases hx
  | node c l a r =>
    cases hx
    exact setColor_layout h

/-- The loop ends at once below a black node. -/
theorem rbInsertColorLoop_black {f : Frame Ptr} {t : ColorTree Ptr} {x : Ptr} (fuel : Nat)
    (h : (Ctx.plug (f :: k) t).toList.Nodup) (hx : t.root = some x) (hf : f.color = .black) :
    rbInsertColorLoop (fuel + 1) (layout M (Ctx.plug (f :: k) t)) x =
      .ok (layout M (Ctx.plug (f :: k) t)) := by
  obtain ⟨m, hm, hp, -⟩ := read_root (M := M) h hx
  have hq := read_branch (M := M) (k := k) (d := f.side) (c := f.color) h
  rw [← plug_near] at hq
  rw [Ctx.parent_cons] at hp
  rw [rbInsertColorLoop, hm, ok_bind]
  simp only [hp, hq, ok_bind, sideNode_color, hf, if_true]

/-- One iteration below a red parent: rotate if the uncle is black, recolour if it is red. -/
theorem rbInsertColorLoop_red {d' d : Side} {c : Color} {t s u : ColorTree Ptr} {x p g : Ptr}
    (fuel : Nat) (h : (k.plug (.branch d c (.branch d' .red t p s) g u)).toList.Nodup)
    (hx : t.root = some x) :
    rbInsertColorLoop (fuel + 1)
        (layout M (k.plug (.branch d c (.branch d' .red t p s) g u))) x =
      if u.color = .black then do
        let (s, y) ← rbInsertRotate d
          (layout M (k.plug (.branch d c (.branch d' .red t p s) g u))) x p g
        rbInsertColorLoop fuel s y
      else rbInsertColorLoop fuel
        (layout M (k.plug (.branch d .red (.branch d' .black t p s) g u.blacken))) g := by
  obtain ⟨m, hm, hmp, -⟩ := read_root (M := M)
    (k := ⟨d', .red, p, s⟩ :: ⟨d, c, g, u⟩ :: k) (t := t) h hx
  have hp := read_branch (M := M) (k := ⟨d, c, g, u⟩ :: k) (d := d') h
  have hg := read_branch (M := M) (k := k) (d := d) h
  have hleft := child_left_iff (k := k) (q := p) h (by simp)
  have huncle := isBlack_layout (M := M)
    (k := ⟨d.flip, c, g, .branch d' .red t p s⟩ :: k) (t := u) (by rwa [plug_far])
  rw [plug_far] at huncle
  have hside : (if d = .left then Side.left else Side.right) = d := by cases d <;> rfl
  simp only [plug_near, Ctx.parent_cons] at hm hmp hp
  rw [rbInsertColorLoop, hm, ok_bind]
  simp only [hmp, hp, ok_bind, sideNode_color, sideNode_parent, hg, reduceCtorEq, if_false, hleft,
    hside, sideNode_child_flip, huncle, decide_eq_true_eq]
  cases huc : u.color with
  | black => rfl
  | red =>
    obtain ⟨v, hv⟩ : ∃ v, u.root = some v := by
      cases u with
      | nil => cases huc
      | node c l a r => exact ⟨a, rfl⟩
    have h₁ := setColor_root (M := M)
      (k := ⟨d.flip, c, g, .branch d' .red t p s⟩ :: k) (by rwa [plug_far]) hv
    have e₁ : (k.plug (.branch d c (.branch d' .red t p s) g u.blacken)).toList.Nodup :=
      nodup_congr h (toList_branch_congr rfl (ColorTree.toList_blacken u).symm)
    have h₂ := setColor_branch (M := M) (k := ⟨d, c, g, u.blacken⟩ :: k)
      (d := d') (e := .black) e₁
    have e₂ : (k.plug (.branch d c (.branch d' .black t p s) g u.blacken)).toList.Nodup :=
      nodup_congr e₁ (toList_branch_congr (toList_branch_congr rfl rfl) rfl)
    have h₃ := setColor_branch (M := M) (e := .red) e₂
    simp only [plug_near, ColorTree.branch_flip] at h₁ h₂
    simp only [hv, h₁, h₂, h₃, ok_bind, reduceCtorEq, if_false]

/-- The loop of `rb_insert_color`: only the hole may hold a red node below a red one. -/
theorem rbInsertColorLoop_layout {fuel : Nat} {t : ColorTree Ptr} {x : Ptr} {n : Nat}
    (h : (k.plug t).toList.Nodup) (hx : t.root = some x) (ht : t.color = .red) (htn : t.RB n)
    (hk : k.RB n) (hfuel : k.length < fuel) :
    ∃ T, rbInsertColorLoop fuel (layout M (k.plug t)) x = .ok (layout M T) ∧
      T.toList = (k.plug t).toList ∧ T.blacken.RedBlack := by
  induction fuel generalizing k t x n with
  | zero => cases hfuel
  | succ fuel ih =>
    cases k with
    | nil =>
      obtain ⟨m, hm, hp, -⟩ := read_root (M := M) h hx
      refine ⟨t, ?_, rfl, ColorTree.color_blacken t, n + 1, htn.blacken_red ht⟩
      rw [rbInsertColorLoop, hm, ok_bind, hp]
      rfl
    | cons f k =>
      obtain ⟨d', c, p, s⟩ := f
      cases c with
      | black =>
        refine ⟨_, rbInsertColorLoop_black _ h hx rfl, rfl, ?_⟩
        have hrb := Ctx.plug_redBlack hk htn fun _ => rfl
        rwa [ColorTree.blacken_of_black hrb.1]
      | red =>
        -- The context admits a red parent, so there is a black grandparent.
        obtain ⟨hs, hsc, hok, hk⟩ := hk
        cases k with
        | nil => exact hok.elim
        | cons g k =>
          obtain ⟨d, c, g, u⟩ := g
          cases hok
          obtain ⟨hu : u.RB n, hk : Ctx.RB k (n + 1)⟩ := hk
          replace hs : s.RB n := hs
          replace hsc : s.color = .black := hsc
          replace h : (Ctx.plug k (.branch d .black (.branch d' .red t p s) g u)).toList.Nodup := h
          rw [plug_near, plug_near]
          simp only [List.length_cons] at hfuel
          have hstep := rbInsertColorLoop_red (M := M) (c := .black) fuel h hx
          cases huc : u.color with
          | black =>
            obtain ⟨a, b, y, q, hrun, hay, hab, hl⟩ := rbInsertRotate_layout (M := M) h hx
              ht htn hs hu hsc huc (Side.eq_or_eq_flip d d')
            obtain ⟨fuel, rfl⟩ : ∃ m, fuel = m + 1 := ⟨fuel - 1, by omega⟩
            have h' : (Ctx.plug k (.branch d .black a q b)).toList.Nodup := nodup_congr h hl.symm
            have hend := rbInsertColorLoop_black (M := M) (k := k)
              (f := ⟨d, .black, q, b⟩) fuel h' hay rfl
            have hrb := Ctx.plug_redBlack hk hab fun hc => by simp at hc
            refine ⟨Ctx.plug k (.branch d .black a q b), ?_, toList_plug_congr hl, ?_⟩
            · rw [huc, if_pos rfl, hrun, ok_bind] at hstep
              exact hstep.trans hend
            · rwa [ColorTree.blacken_of_black hrb.1]
          | red =>
            have hl : (ColorTree.branch d .red (.branch d' .black t p s) g u.blacken).toList =
                (ColorTree.branch d .black (.branch d' .red t p s) g u).toList :=
              toList_branch_congr (toList_branch_congr rfl rfl) (ColorTree.toList_blacken u)
            obtain ⟨T, hrun, hT, hrb⟩ := ih (x := g) (nodup_congr h hl.symm) (by simp) (by simp)
              (ColorTree.rb_red.mpr ⟨by simp, by simp, ColorTree.rb_black.mpr ⟨htn, hs⟩,
                hu.blacken_red huc⟩) hk (by omega)
            refine ⟨T, ?_, hT.trans (toList_plug_congr hl), hrb⟩
            rw [huc, if_neg (by decide)] at hstep
            exact hstep.trans hrun

/-- `rb_insert_color` after a red leaf was linked. -/
theorem rbInsertColor_layout {fuel : Nat} {x : Ptr}
    (h : (k.plug (.node .red .nil x .nil)).toList.Nodup) (hT : (k.plug .nil).RedBlack)
    (hfuel : k.length < fuel) :
    ∃ T, rbInsertColor fuel (layout M (k.plug (.node .red .nil x .nil))) x =
        .ok (layout M T) ∧
      T.toList = (k.plug (.node .red .nil x .nil)).toList ∧ T.RedBlack := by
  obtain ⟨n, hk, hn, -⟩ := Ctx.redBlack_plug hT
  cases hn
  obtain ⟨T, hrun, hl, hrb⟩ := rbInsertColorLoop_layout (M := M) (t := .node .red .nil x .nil)
    h rfl rfl ⟨rfl, rfl, rfl, rfl⟩ hk hfuel
  obtain ⟨y, hy⟩ : ∃ y, T.root = some y := by
    cases T with
    | nil =>
      rw [Ctx.toList_plug] at hl
      simp [ColorTree.toList] at hl
    | node c l a r => exact ⟨a, rfl⟩
  have hcolor := setColor_root (M := M) (k := []) (t := T)
    (by rw [← hl] at h; exact h) hy
  refine ⟨T.blacken, ?_, (ColorTree.toList_blacken T).trans hl, hrb⟩
  rw [rbInsertColor, hrun, ok_bind]
  show (layout M T).setColor T.root .black = _
  rw [hy]
  exact hcolor

/-! ## Removal -/

theorem setBlackIf_layout {t : ColorTree Ptr} (h : (k.plug t).toList.Nodup) :
    (layout M (k.plug t)).setBlackIf t.root = .ok (layout M (k.plug t.blacken)) := by
  cases ht : t.root with
  | none =>
    rw [ColorTree.eq_nil_of_root ht]
    rfl
  | some p => exact setColor_root h ht

/-- A tree with a red root, seen from side `d`. -/
theorem eq_branch_red {t : ColorTree Ptr} (ht : t.color = .red) (d : Side) :
    ∃ a x b, t = .branch d .red a x b := by
  cases t with
  | nil => cases ht
  | node c l x r =>
    cases ht
    obtain ⟨a, b, hab⟩ := ColorTree.eq_branch d .red l r x
    exact ⟨a, x, b, hab⟩

/-- The end of an iteration with a red far nephew. -/
theorem rbEraseFar_layout {d : Side} {c c' : Color} {t a b : ColorTree Ptr} {p o : Ptr}
    (h : (k.plug (.branch d c t p (.branch d c' a o b))).toList.Nodup) :
    rbEraseFar d (layout M (k.plug (.branch d c t p (.branch d c' a o b)))) (some o) (some p) =
      .ok (layout M (k.plug (.branch d c (.branch d .black t p a) o b.blacken))) := by
  have hp := read_branch (M := M) (k := k) (d := d) h
  have h₁ := setColor_branch (M := M) (k := ⟨d.flip, c, p, t⟩ :: k) (d := d) (p := o)
    (e := c) (by rwa [plug_far])
  have e₁ : (k.plug (.branch d c t p (.branch d c a o b))).toList.Nodup :=
    nodup_congr h (toList_branch_congr rfl (toList_branch_congr rfl rfl))
  have h₂ := setColor_branch (M := M) (e := .black) e₁
  have e₂ : (k.plug (.branch d .black t p (.branch d c a o b))).toList.Nodup :=
    nodup_congr e₁ (toList_branch_congr rfl rfl)
  have ho := read_branch (M := M) (k := ⟨d.flip, .black, p, t⟩ :: k) (d := d) (p := o)
    (by rwa [plug_far])
  have h₃ := setBlackIf_layout (M := M)
    (k := ⟨d.flip, c, o, a⟩ :: ⟨d.flip, .black, p, t⟩ :: k) (t := b) (by rwa [plug_far, plug_far])
  have e₃ : (k.plug (.branch d .black t p (.branch d c a o b.blacken))).toList.Nodup :=
    nodup_congr e₂ (toList_branch_congr rfl
      (toList_branch_congr rfl (ColorTree.toList_blacken b).symm))
  have h₄ := rotate_layout (M := M) e₃
  simp only [plug_far] at h₁ ho h₃
  simp only [rbEraseFar, hp, ok_bind, sideNode_color, sideNode_child_flip, h₁, h₂, ho, h₃, h₄]

/-- The end of an iteration when the black sibling has a red child. -/
theorem rbEraseRotate_layout {d : Side} {c : Color} {t a b : ColorTree Ptr} {p o : Ptr} {n : Nat}
    (h : (k.plug (.branch d c t p (.branch d .black a o b))).toList.Nodup)
    (ha : a.RB n) (hb : b.RB n) (hab : ¬ (a.color = .black ∧ b.color = .black)) :
    ∃ A y B, rbEraseRotate d (layout M (k.plug (.branch d c t p (.branch d .black a o b))))
        (some o) (some p) = .ok (layout M (k.plug (.branch d c (.branch d .black t p A) y B))) ∧
      A.RB n ∧ B.RB (n + 1) ∧ B.color = .black ∧
      (ColorTree.branch d c (.branch d .black t p A) y B).toList =
        (ColorTree.branch d c t p (.branch d .black a o b)).toList := by
  have ho := read_branch (M := M) (k := ⟨d.flip, c, p, t⟩ :: k) (d := d) (p := o)
    (by rwa [plug_far])
  have hbb := isBlack_layout (M := M)
    (k := ⟨d.flip, .black, o, a⟩ :: ⟨d.flip, c, p, t⟩ :: k) (t := b) (by rwa [plug_far, plug_far])
  simp only [plug_far] at ho hbb
  cases hbc : b.color with
  | red =>
    refine ⟨a, o, b.blacken, ?_, ha, hb.blacken_red hbc, by simp, ?_⟩
    · simp only [rbEraseRotate, ho, ok_bind, sideNode_child_flip, hbb, hbc, reduceCtorEq,
        decide_false, Bool.false_eq_true, if_false]
      exact rbEraseFar_layout h
    · rw [rotate_toList (m := c) (n := .black)]
      exact toList_branch_congr rfl (toList_branch_congr rfl (ColorTree.toList_blacken b))
  | black =>
    have hac : a.color = .red := by
      cases hc : a.color with
      | red => rfl
      | black => exact absurd ⟨hc, hbc⟩ hab
    obtain ⟨a₁, x, a₂, rfl⟩ := eq_branch_red hac d
    obtain ⟨h₁c, h₂c, h₁n, h₂n⟩ := ColorTree.rb_red.mp ha
    -- A rotation at the sibling makes the near nephew the far one.
    have h₁ := setBlackIf_layout (M := M)
      (k := ⟨d, .black, o, b⟩ :: ⟨d.flip, c, p, t⟩ :: k) (t := .branch d .red a₁ x a₂)
      (by rwa [plug_near, plug_far])
    have hbl : (ColorTree.branch d .red a₁ x a₂).blacken = .branch d .black a₁ x a₂ := by
      cases d <;> rfl
    have e₁ : (k.plug (.branch d c t p (.branch d .black (.branch d .black a₁ x a₂) o b))
        ).toList.Nodup := nodup_congr h
      (toList_branch_congr rfl (toList_branch_congr (toList_branch_congr rfl rfl) rfl))
    have h₂ := setColor_branch (M := M) (k := ⟨d.flip, c, p, t⟩ :: k) (d := d) (p := o)
      (e := .red) (by rwa [plug_far])
    have e₂ : (k.plug (.branch d c t p (.branch d .red (.branch d .black a₁ x a₂) o b))
        ).toList.Nodup := nodup_congr e₁ (toList_branch_congr rfl (toList_branch_congr rfl rfl))
    have h₃ := rotate_flip_layout (M := M) (k := ⟨d.flip, c, p, t⟩ :: k) (d := d) (x := o)
      (by rwa [plug_far])
    have e₃ : (k.plug (.branch d c t p (.branch d .black a₁ x (.branch d .red a₂ o b)))
        ).toList.Nodup := nodup_congr e₂ (toList_branch_congr rfl rotate_toList)
    have hp := read_branch (M := M) (k := k) (d := d) e₃
    have hfar := rbEraseFar_layout (M := M) e₃
    simp only [plug_near, ColorTree.branch_flip, hbl, ColorTree.root_branch] at h₁ h₂ h₃ hp
    refine ⟨a₁, x, .branch d .black a₂ o b, ?_, h₁n, ColorTree.rb_black.mpr ⟨h₂n, hb⟩, by simp, ?_⟩
    · simp only [rbEraseRotate, ho, ok_bind, sideNode_child_flip, sideNode_child, hbb, hbc,
        decide_true, if_true, ColorTree.root_branch, h₁, h₂, h₃, hp, hfar]
      cases d <;> rfl
    · rw [rotate_toList (m := c) (n := .black)]
      exact toList_branch_congr rfl rotate_toList.symm

/-- The start of an iteration: afterwards the sibling is black. The context grows only when the
parent has become red. -/
theorem rbEraseSibling_layout {d : Side} {c : Color} {t s : ColorTree Ptr} {p : Ptr} {n : Nat}
    (h : (k.plug (.branch d c t p s)).toList.Nodup)
    (hk : Ctx.RB (⟨d, c, p, s⟩ :: k) (n + 1)) :
    ∃ k' c' a o b, rbEraseSibling d (layout M (k.plug (.branch d c t p s))) s.root (some p) =
        .ok (layout M (Ctx.plug k' (.branch d c' t p (.branch d .black a o b))), some o) ∧
      Ctx.RB (⟨d, c', p, .branch d .black a o b⟩ :: k') (n + 1) ∧
      (Ctx.plug k' (.branch d c' t p (.branch d .black a o b))).toList =
        (k.plug (.branch d c t p s)).toList ∧
      (c' = .red ∨ k'.length = k.length) := by
  have hsn : s.RB (n + 1) := hk.1
  obtain ⟨cs, a, o, b, rfl⟩ : ∃ cs a o b, s = .branch d cs a o b := by
    cases s with
    | nil => exact absurd rfl hsn.root_ne_none
    | node cs l o r =>
      obtain ⟨a, b, hab⟩ := ColorTree.eq_branch d cs l r o
      exact ⟨cs, a, o, b, hab⟩
  have ho := read_branch (M := M) (k := ⟨d.flip, c, p, t⟩ :: k) (d := d) (p := o)
    (by rwa [plug_far])
  simp only [plug_far] at ho
  cases cs with
  | black =>
    refine ⟨k, c, a, o, b, ?_, hk, rfl, .inr rfl⟩
    simp only [rbEraseSibling, ColorTree.root_branch, ho, ok_bind, sideNode_color, reduceCtorEq,
      if_false]
    rfl
  | red =>
    obtain ⟨ha, hb, han, hbn⟩ := ColorTree.rb_red.mp hsn
    -- The red sibling has a black parent, and its near child is the new sibling.
    cases c with
    | red => exact absurd hk.2.1 (by simp)
    | black =>
      replace hk : k.RB (n + 2) := hk.2
      obtain ⟨a', x, b', rfl⟩ : ∃ a' x b', a = .branch d .black a' x b' := by
        cases a with
        | nil => exact absurd rfl han.root_ne_none
        | node ca l x r =>
          cases ha
          obtain ⟨a', b', hab⟩ := ColorTree.eq_branch d .black l r x
          exact ⟨a', x, b', hab⟩
      have h₁ := setColor_branch (M := M) (k := ⟨d.flip, .black, p, t⟩ :: k) (d := d) (p := o)
        (e := .black) (by rwa [plug_far])
      have e₁ : (k.plug (.branch d .black t p (.branch d .black (.branch d .black a' x b') o b))
          ).toList.Nodup := nodup_congr h (toList_branch_congr rfl (toList_branch_congr rfl rfl))
      have h₂ := setColor_branch (M := M) (e := .red) e₁
      have e₂ : (k.plug (.branch d .red t p (.branch d .black (.branch d .black a' x b') o b))
          ).toList.Nodup := nodup_congr e₁ (toList_branch_congr rfl rfl)
      have h₃ := rotate_layout (M := M) e₂
      have e₃ : (k.plug (.branch d .black (.branch d .red t p (.branch d .black a' x b')) o b)
          ).toList.Nodup := nodup_congr e₂ rotate_toList.symm
      have hp := read_branch (M := M) (k := ⟨d, .black, o, b⟩ :: k) (d := d) e₃
      simp only [plug_near, ColorTree.branch_flip] at h₁ hp
      refine ⟨⟨d, .black, o, b⟩ :: k, .red, a', x, b', ?_, ⟨han, by simp, rfl, hbn, hk⟩, ?_, .inl rfl⟩
      · simp only [rbEraseSibling, ColorTree.root_branch, ho, ok_bind, sideNode_color, if_true, h₁, h₂,
          h₃, hp, sideNode_child_flip]
        rfl
      · rw [plug_near]
        exact toList_plug_congr rotate_toList

/-- The root over a context is not in the hole. -/
theorem root_plug_ne {f : Frame Ptr} {t : ColorTree Ptr} (h : (Ctx.plug (f :: k) t).toList.Nodup) :
    (Ctx.plug (f :: k) t).root ≠ t.root := by
  have hroot : ∀ q, (Ctx.plug (f :: k) t).root = some q → q ∉ t.toList := by
    induction k generalizing f t with
    | nil =>
      intro q hq
      rw [Ctx.plug, Ctx.plug, Frame.fill, ColorTree.root_branch, Option.some_inj] at hq
      exact parent_not_mem h (by simp [hq])
    | cons g k ih =>
      intro q hq hm
      refine ih (t := f.fill t) h q hq ?_
      rw [Frame.toList_fill]
      simp [hm]
  intro he
  cases ht : t.root with
  | some q => exact hroot q (he.trans ht) (ColorTree.root_mem ht)
  | none =>
    have hnil := ColorTree.eq_nil_of_root (he.trans ht)
    have hp : f.label ∈ (Ctx.plug (f :: k) t).toList := by
      rw [Ctx.toList_plug]
      rcases parent_mem (k := f :: k) rfl with hb | ha <;> simp [*]
    rw [hnil] at hp
    cases hp

/-- The loop ends at a red node. -/
theorem rbEraseColorLoop_red {t : ColorTree Ptr} (fuel : Nat) (par : Option Ptr)
    (h : (k.plug t).toList.Nodup) (ht : t.color = .red) :
    rbEraseColorLoop (fuel + 1) (layout M (k.plug t)) t.root par =
      .ok (layout M (k.plug t), t.root) := by
  have hb := isBlack_layout (M := M) h
  rw [rbEraseColorLoop, hb, ht]
  rfl

/-- The loop of `__rb_erase_color`: the paths through the hole `t` lack one black node, or `t` is
red and becomes black at the end. -/
theorem rbEraseColorLoop_layout {fuel : Nat} {t : ColorTree Ptr} {n : Nat}
    (h : (k.plug t).toList.Nodup) (hk : k.RB (n + 1))
    (ht : t.color = .black ∧ t.RB n ∨ t.color = .red ∧ t.blacken.RB (n + 1))
    (hfuel : k.length + 1 < fuel) :
    ∃ k' t', rbEraseColorLoop fuel (layout M (k.plug t)) t.root k.parent =
        .ok (layout M (Ctx.plug k' t'), t'.root) ∧
      (Ctx.plug k' t').toList = (k.plug t).toList ∧ (Ctx.plug k' t'.blacken).RedBlack := by
  induction fuel generalizing k t n with
  | zero => cases hfuel
  | succ fuel ih =>
    rcases ht with ⟨htc, htn⟩ | ⟨htc, htn⟩
    swap
    · exact ⟨k, t, rbEraseColorLoop_red _ _ h htc, rfl,
        Ctx.plug_redBlack hk htn fun hc => by simp at hc⟩
    have hb := isBlack_layout (M := M) h
    cases k with
    | nil =>
      refine ⟨[], t, ?_, rfl, by simp [Ctx.plug, ColorTree.color_blacken], ?_⟩
      · rw [rbEraseColorLoop, hb, ok_bind]
        simp [layout, Ctx.plug, pure, Except.pure]
      · exact ⟨n, by rwa [Ctx.plug, ColorTree.blacken_of_black htc]⟩
    | cons f k =>
      obtain ⟨d, c, p, s⟩ := f
      replace h : (Ctx.plug k (.branch d c t p s)).toList.Nodup := h
      have hp := read_branch (M := M) h
      have hne : t.root ≠ (layout M (Ctx.plug k (.branch d c t p s))).rbNode :=
        Ne.symm (root_plug_ne (f := ⟨d, c, p, s⟩) h)
      have hside : (if (sideNode d (Ctx.parent k) c t.root s.root).child .left = t.root
          then Side.left else Side.right) = d := by
        have hst : s.root ≠ t.root := by
          intro he
          cases ht : t.root with
          | none => exact (ColorTree.RB.root_ne_none hk.1) (ColorTree.eq_nil_of_root (he.trans ht))
          | some q => exact children_ne h ht (he.trans ht)
        cases d with
        | left => exact if_pos sideNode_child
        | right => exact if_neg fun he => hst ((sideNode_child_flip (d := .right)).symm.trans he)
      obtain ⟨k', c', a, o, b, hsib, hk', hl, hlen⟩ := rbEraseSibling_layout (M := M) h hk
      have h' : (Ctx.plug k' (.branch d c' t p (.branch d .black a o b))).toList.Nodup := by
        rwa [hl]
      have ho := read_branch (M := M) (k := ⟨d.flip, c', p, t⟩ :: k') (d := d) (p := o)
        (by rwa [plug_far])
      have hab := isBlack_layout (M := M)
        (k := ⟨d, .black, o, b⟩ :: ⟨d.flip, c', p, t⟩ :: k') (t := a) (by rwa [plug_near, plug_far])
      have hbb := isBlack_layout (M := M)
        (k := ⟨d.flip, .black, o, a⟩ :: ⟨d.flip, c', p, t⟩ :: k') (t := b)
        (by rwa [plug_far, plug_far])
      simp only [plug_near, ColorTree.branch_flip] at hb ho hab hbb ⊢
      have hstep : rbEraseColorLoop (fuel + 1) (layout M (Ctx.plug k (.branch d c t p s))) t.root
          (some p) = if a.color = .black ∧ b.color = .black then
            rbEraseColorLoop fuel
              (layout M (Ctx.plug k' (.branch d c' t p (.branch d .red a o b)))) (some p)
              (Ctx.parent k')
          else rbEraseRotate d (layout M (Ctx.plug k'
            (.branch d c' t p (.branch d .black a o b)))) (some o) (some p) >>= fun s =>
              .ok (s, s.rbNode) := by
        have h₁ := setColor_branch (M := M) (k := ⟨d.flip, c', p, t⟩ :: k') (d := d) (p := o)
          (e := .red) (by rwa [plug_far])
        have e₁ : (Ctx.plug k' (.branch d c' t p (.branch d .red a o b))).toList.Nodup :=
          nodup_congr h' (toList_branch_congr rfl (toList_branch_congr rfl rfl))
        have hp₁ := read_branch (M := M) e₁
        simp only [plug_near, ColorTree.branch_flip] at h₁
        rw [rbEraseColorLoop, hb, ok_bind, htc]
        simp only [decide_true, Bool.true_and, ne_eq, hne, not_false_eq_true, if_true, hp, ok_bind,
          hside, sideNode_child_flip, hsib, ho]
        rcases sideNode_children d (some p) .black a.root b.root with ⟨hcl, hcr⟩ | ⟨hcl, hcr⟩
        · simp only [Ctx.parent_cons, hcl, hcr, hab, hbb, ok_bind, Bool.and_eq_true,
            decide_eq_true_eq, h₁, hp₁, sideNode_parent]
          rfl
        · simp only [Ctx.parent_cons, hcl, hcr, hab, hbb, ok_bind, Bool.and_eq_true,
            decide_eq_true_eq, h₁, hp₁, sideNode_parent, and_comm]
          rfl
      obtain ⟨hsn, hk'⟩ := hk'
      obtain ⟨han, hbn⟩ := ColorTree.rb_black.mp hsn
      simp only [List.length_cons] at hfuel
      rw [Ctx.parent_cons, hstep]
      by_cases hblack : a.color = .black ∧ b.color = .black
      · -- The sibling becomes red, and the hole moves up to the parent.
        rw [if_pos hblack]
        have e₁ : (Ctx.plug k' (.branch d c' t p (.branch d .red a o b))).toList.Nodup :=
          nodup_congr h' (toList_branch_congr rfl (toList_branch_congr rfl rfl))
        have hl₁ : (Ctx.plug k' (.branch d c' t p (.branch d .red a o b))).toList =
            (Ctx.plug k (.branch d c t p s)).toList :=
          (toList_plug_congr (toList_branch_congr rfl (toList_branch_congr rfl rfl))).trans hl
        have hred : (ColorTree.branch d .red a o b).RB n :=
          ColorTree.rb_red.mpr ⟨hblack.1, hblack.2, han, hbn⟩
        cases c' with
        | red =>
          obtain ⟨fuel, rfl⟩ : ∃ m, fuel = m + 1 := ⟨fuel - 1, by omega⟩
          have hend := rbEraseColorLoop_red (M := M) fuel (Ctx.parent k') e₁
            (by simp)
          have hbl : (ColorTree.branch d .red t p (.branch d .red a o b)).blacken =
              .branch d .black t p (.branch d .red a o b) := by cases d <;> rfl
          refine ⟨k', .branch d .red t p (.branch d .red a o b), ?_, hl₁, ?_⟩
          · simpa using hend
          · rw [hbl]
            exact Ctx.plug_redBlack hk'.2.2 (ColorTree.rb_black.mpr ⟨htn, hred⟩) fun hc => by simp at hc
        | black =>
          have hlen' : k'.length = k.length := hlen.resolve_left (by simp)
          obtain ⟨k'', t'', hrun, hl'', hrb⟩ := ih (t := .branch d .black t p (.branch d .red a o b))
            e₁ hk' (.inl ⟨by simp, ColorTree.rb_black.mpr ⟨htn, hred⟩⟩) (by omega)
          exact ⟨k'', t'', by simpa using hrun, hl''.trans hl₁, hrb⟩
      · rw [if_neg hblack]
        obtain ⟨A, y, B, hrot, hA, hB, hBc, hlr⟩ := rbEraseRotate_layout (M := M) h' han hbn
          hblack
        have hrb : (Ctx.plug k' (.branch d c' (.branch d .black t p A) y B)).RedBlack := by
          have hnear : (ColorTree.branch d .black t p A).RB (n + 1) := ColorTree.rb_black.mpr ⟨htn, hA⟩
          cases c' with
          | red =>
            exact Ctx.plug_redBlack hk'.2.2 (ColorTree.rb_red.mpr ⟨by simp, hBc, hnear, hB⟩) fun _ =>
              hk'.2.1
          | black =>
            exact Ctx.plug_redBlack hk' (ColorTree.rb_black.mpr ⟨hnear, hB⟩) fun hc => by simp at hc
        refine ⟨[], Ctx.plug k' (.branch d c' (.branch d .black t p A) y B), ?_,
          (toList_plug_congr (k := k') hlr).trans hl, ?_⟩
        · rw [hrot]
          rfl
        · rw [Ctx.plug, ColorTree.blacken_of_black hrb.1]
          exact hrb

/-- `__rb_erase_color` restores the colour rules when the paths through the hole lack one black
node. -/
theorem rbEraseColor_layout {fuel : Nat} {t : ColorTree Ptr} {n : Nat}
    (h : (k.plug t).toList.Nodup) (hk : k.RB (n + 1))
    (ht : t.color = .black ∧ t.RB n ∨ t.color = .red ∧ t.blacken.RB (n + 1))
    (hfuel : k.length + 1 < fuel) :
    ∃ T, rbEraseColor fuel (layout M (k.plug t)) t.root k.parent = .ok (layout M T) ∧
      T.toList = (k.plug t).toList ∧ T.RedBlack := by
  obtain ⟨k', t', hrun, hl, hrb⟩ := rbEraseColorLoop_layout (M := M) h hk ht hfuel
  refine ⟨Ctx.plug k' t'.blacken, ?_,
    (toList_plug_congr (ColorTree.toList_blacken t')).trans hl, hrb⟩
  rw [rbEraseColor, hrun, ok_bind]
  exact setBlackIf_layout (by rwa [hl])

/-- The end of a removal: `t` has taken the place of a node of colour `c` without child on side
`d`. -/
theorem rbEraseFix_layout {fuel : Nat} {d : Side} {c : Color} {p : Ptr} {t : ColorTree Ptr} {n : Nat}
    (h : (k.plug t).toList.Nodup) (hk : k.RB n) (hn : (ColorTree.branch d c .nil p t).RB n)
    (hfuel : k.length + 1 < fuel) :
    ∃ T, (if c = .black then rbEraseColor fuel (layout M (k.plug t)) t.root k.parent
        else .ok (layout M (k.plug t))) = .ok (layout M T) ∧
      T.toList = (k.plug t).toList ∧ T.RedBlack := by
  cases c with
  | red =>
    obtain ⟨-, htc, -, htn⟩ := ColorTree.rb_red.mp hn
    exact ⟨k.plug t, rfl, rfl, Ctx.plug_redBlack hk htn fun hc => by rw [htc] at hc; cases hc⟩
  | black =>
    obtain ⟨m, rfl⟩ : ∃ m, n = m + 1 := by cases d <;> exact ⟨_, hn.choose_spec.1⟩
    obtain ⟨-, htn⟩ := ColorTree.rb_black.mp hn
    rw [if_pos rfl]
    refine rbEraseColor_layout h hk ?_ hfuel
    cases hc : t.color with
    | black => exact .inl ⟨rfl, htn⟩
    | red => exact .inr ⟨rfl, htn.blacken_red hc⟩

/-- The removal of a node that has no child on side `d`. -/
theorem rbEraseOne_layout {fuel : Nat} {d : Side} {c : Color} {p : Ptr} {t : ColorTree Ptr}
    (h : (k.plug (.branch d c .nil p t)).toList.Nodup)
    (hrb : (k.plug (.branch d c .nil p t)).RedBlack)
    (hfuel : (k.plug (.branch d c .nil p t)).toList.length < fuel) :
    ∃ T M', rbEraseOne fuel (layout M (k.plug (.branch d c .nil p t))) p t.root =
        .ok (layout M' T) ∧ (∀ q, q ≠ p → M' q = M q) ∧
      T.toList = (k.plug t).toList ∧ T.RedBlack := by
  have hpt : p ∈ (ColorTree.branch d c .nil p t).toList := by
    cases d <;> simp [ColorTree.branch, ColorTree.toList]
  have hnd := nodup_detach h
  have hread := read_branch (M := M) h
  have hdetach := detach_view (M := M) h
  let M' := M.set p (some (sideNode d k.parent c none t.root))
  have hrelink := relink_view (M := M') (d := .left) (v := t.root)
    (x := nodeAt t k.parent) (fun q hq => nodeAt_eq_none.mpr (parent_not_mem hnd hq))
    (sibling_ne h hpt)
  rw [← layout_plug hnd] at hrelink
  have hlen : k.length + 1 < fuel := by
    refine Nat.lt_of_le_of_lt ?_ hfuel
    refine Nat.le_trans (Nat.add_le_add_left ?_ _) (Ctx.length_le_toList k _)
    exact List.length_pos_of_mem hpt
  obtain ⟨n, hk, hn, -⟩ := Ctx.redBlack_plug hrb
  obtain ⟨T, hrun, hl, hT⟩ := rbEraseFix_layout (M := M') hnd hk hn hlen
  refine ⟨T, M', ?_, fun q hq => Heap.set_other _ _ hq, hl, hT⟩
  simp only [rbEraseOne, hread, ok_bind, sideNode_parent, sideNode_color, hdetach]
  exact (congrArg (· >>= _) hrelink).trans hrun

/-- The walk to the left ends at the node without left child. -/
theorem rbLeftmost_layout {fuel : Nat} {t : ColorTree Ptr} {x : Ptr} (h : (k.plug t).toList.Nodup)
    (hx : t.root = some x) (hfuel : t.toList.length < fuel) :
    ∃ kr c s rr, t = Ctx.plug kr (.node c .nil s rr) ∧ (∀ f ∈ kr, f.side = .left) ∧
      rbLeftmost fuel (layout M (k.plug t)) x = .ok s := by
  induction t generalizing k x fuel with
  | nil => cases hx
  | node c l a r ihl _ =>
    cases hx
    obtain ⟨fuel, rfl⟩ : ∃ m, fuel = m + 1 := ⟨fuel - 1, by omega⟩
    have hread := read_layout (M := M) h
    cases l with
    | nil =>
      refine ⟨[], c, a, r, rfl, by simp, ?_⟩
      simp [rbLeftmost, hread, ColorTree.root]
    | node cl ll b lr =>
      have hlenl : (ColorTree.node cl ll b lr).toList.length < fuel := by
        simp [ColorTree.toList] at hfuel ⊢
        omega
      obtain ⟨kr, c', s, rr, hl, hside, hrun⟩ := ihl (k := ⟨.left, c, a, r⟩ :: k) (x := b)
        h rfl hlenl
      refine ⟨kr ++ [⟨.left, c, a, r⟩], c', s, rr, ?_, ?_, ?_⟩
      · rw [Ctx.plug_append, ← hl]
        rfl
      · intro f hf
        rcases List.mem_append.mp hf with hf | hf
        · exact hside f hf
        · rw [List.mem_singleton.mp hf]
      · rw [rbLeftmost, hread, ok_bind]
        exact hrun

/-- The label above a hole belongs to the tree. -/
theorem label_mem_plug {f : Frame Ptr} {t : ColorTree Ptr} :
    f.label ∈ (Ctx.plug (f :: k) t).toList := by
  rw [Ctx.toList_plug]
  rcases parent_mem (k := f :: k) rfl with hb | ha <;> simp [*]

/-- The link to the successor, below the right child of `p` or its right child itself, is set to
`v`. The parent of the hole is as if the successor `s` stood in the place of `p`. -/
theorem unlink_successor {kr : Ctx Ptr} {c : Color} {p s : Ptr} {l t : ColorTree Ptr} {v : Option Ptr}
    {x : Heap RbNode} (hole : Option Ptr) (h : (Ctx.plug (kr ++ ⟨.right, c, p, l⟩ :: k) t).toList.Nodup)
    (hside : ∀ f ∈ kr, f.side = .left)
    (hx : ∀ q, Ctx.parent (kr ++ ⟨.right, c, p, l⟩ :: k) = some q → x q = none) :
    rbUnlinkSuccessor (view M (kr ++ ⟨.right, c, p, l⟩ :: k) hole x) p s
        (Ctx.parent (kr ++ ⟨.right, c, p, l⟩ :: k)) v =
      .ok (view M (kr ++ ⟨.right, c, p, l⟩ :: k) v x,
        Ctx.parent (kr ++ ⟨.right, c, s, l⟩ :: k)) := by
  unfold rbUnlinkSuccessor
  cases kr with
  | nil =>
    have hset := setChild_frame (M := M) (k := k) (v := v) hole
      (f := ⟨.right, c, p, l⟩) (hx p rfl)
    simp only [List.nil_append, Ctx.parent_cons, if_true] at hset ⊢
    rw [hset]
    rfl
  | cons f kr =>
    have hset := setChild_frame (M := M) (k := kr ++ ⟨.right, c, p, l⟩ :: k) (v := v) (f := f)
      hole (hx f.label rfl)
    have hfp : f.label ≠ p := by
      rw [Ctx.plug_append] at h
      exact fun he => parent_not_mem h rfl (he ▸ label_mem_plug)
    rw [hside f List.mem_cons_self] at hset
    simp only [List.cons_append, Ctx.parent_cons, Option.some_inj, hfp, if_false] at hset ⊢
    rw [hset]
    rfl

/-- The removal of a node with two children. -/
theorem rbEraseTwo_layout {fuel : Nat} {c : Color} {p : Ptr} {l r : ColorTree Ptr}
    (h : (k.plug (.node c l p r)).toList.Nodup) (hrb : (k.plug (.node c l p r)).RedBlack)
    (hl : l ≠ .nil) (hr : r ≠ .nil)
    (hfuel : (k.plug (.node c l p r)).toList.length < fuel) :
    ∃ T M', rbEraseTwo fuel (layout M (k.plug (.node c l p r))) p = .ok (layout M' T) ∧
      (∀ q, q ≠ p → q ∉ T.toList → M' q = M q) ∧
      T.toList = k.before ++ (l.toList ++ r.toList) ++ k.after ∧ T.RedBlack := by
  obtain ⟨y, hy⟩ : ∃ y, r.root = some y := by
    cases r with
    | nil => exact absurd rfl hr
    | node c l a r => exact ⟨a, rfl⟩
  have hread := read_layout (M := M) h
  have hlenr : r.toList.length < fuel := by
    have hlen := Ctx.length_le_toList k (.node c l p r)
    simp [ColorTree.toList] at hlen
    omega
  obtain ⟨kr, cs, s, rr, rfl, hside, hleft⟩ := rbLeftmost_layout (M := M)
    (k := ⟨.right, c, p, l⟩ :: k) (t := r) h hy hlenr
  have hplug : ∀ q t, Ctx.plug (kr ++ ⟨.right, c, q, l⟩ :: k) t =
      k.plug (.node c l q (Ctx.plug kr t)) := fun q t => Ctx.plug_append _ _ _
  -- The successor `s` has no left child. It leaves its place to its right subtree `rr`.
  have hs : (Ctx.plug (kr ++ ⟨.right, c, p, l⟩ :: k) (.branch .left cs .nil s rr)).toList.Nodup := by
    rw [hplug]
    exact h
  have hsmem : s ∈ (ColorTree.branch .left cs .nil s rr).toList := by
    simp [ColorTree.branch, ColorTree.toList]
  have hnd := nodup_detach hs
  have hreadS := read_branch (M := M) hs
  let M₁ := M.set s
    (some (sideNode .left (Ctx.parent (kr ++ ⟨.right, c, p, l⟩ :: k)) cs none rr.root))
  have hdetach : _ = Except.ok (view M₁ _ _ _) := detach_view (M := M) hs
  have hunlink := unlink_successor (M := M₁) (s := s) (v := rr.root) (some s) hnd hside
    (x := nodeAt rr (Ctx.parent (kr ++ ⟨.right, c, p, l⟩ :: k)))
    fun q hq => nodeAt_eq_none.mpr (parent_not_mem hnd hq)
  rw [← layout_plug hnd] at hunlink
  -- It takes over the place of `p`.
  have hndp : (k.plug (.node c l p (Ctx.plug kr rr))).toList.Nodup := by rwa [← hplug]
  have hsp : s ∉ (k.plug (.node c l p (Ctx.plug kr rr))).toList := by
    rw [← hplug, Ctx.toList_plug]
    have hctx := not_mem_ctx hs hsmem
    have hsr : s ∉ rr.toList := by
      rw [Ctx.toList_plug] at hs
      have := (List.nodup_append.mp (List.nodup_append.mp hs).1).2.1
      simp [ColorTree.branch, ColorTree.toList] at this
      exact this.1
    simp [hctx.1, hctx.2, hsr]
  have hreadP := read_layout (M := M₁) hndp
  obtain ⟨s₁, s₂, s₃, h₁, h₂, h₃, h₄⟩ := substitute_layout (M := M₁) hndp hsp
    (Heap.set_same _ _ _) hl
  let M₂ := M₁.set p (some ⟨k.parent, c, (Ctx.plug kr rr).root, l.root⟩)
  have hndS := nodup_substitute hndp hsp
  obtain ⟨n, hk, hn, -⟩ := Ctx.redBlack_plug (k := kr ++ ⟨.right, c, p, l⟩ :: k)
    (t := .branch .left cs .nil s rr) (by rw [hplug]; exact hrb)
  have hlenS := Ctx.length_le_toList (kr ++ ⟨.right, c, p, l⟩ :: k) (.branch .left cs .nil s rr)
  rw [← hplug] at h₄ hreadP hndS
  have hpath : (kr ++ ⟨.right, c, s, l⟩ :: k).length + 1 < fuel := by
    rw [hplug] at hlenS
    refine Nat.lt_of_le_of_lt ?_ hfuel
    refine Nat.le_trans ?_ hlenS
    simp [ColorTree.branch, ColorTree.toList]
  obtain ⟨T, hrun, hlT, hT⟩ := rbEraseFix_layout (M := M₂) hndS hk.relabel hn hpath
  have hsT : s ∈ T.toList := by
    rw [hlT, hplug, Ctx.toList_plug]
    simp [ColorTree.toList]
  refine ⟨T, M₂, ?_, ?_, ?_, hT⟩
  · have hlayout : layout M (k.plug (.node c l p (Ctx.plug kr (.node cs .nil s rr)))) =
        layout M (Ctx.plug (kr ++ ⟨.right, c, p, l⟩ :: k) (.branch .left cs .nil s rr)) := by
      rw [hplug]
      rfl
    have hleft' : rbLeftmost fuel
        (layout M (Ctx.plug (kr ++ ⟨.right, c, p, l⟩ :: k) (.branch .left cs .nil s rr))) y =
        .ok s := hlayout ▸ hleft
    rw [hlayout] at hread ⊢
    have hright : ∀ par, (sideNode .left par cs ColorTree.nil.root rr.root).rbRight = rr.root :=
      fun _ => rfl
    rw [← hplug] at h₁
    simp only [rbEraseTwo, hread, ok_bind, hy, hleft', hreadS, sideNode_parent, sideNode_color,
      hright, hdetach, hunlink, hreadP, h₁, h₂, h₃, h₄]
    exact hrun
  · intro q hqp hqT
    have hqs : q ≠ s := fun he => hqT (he ▸ hsT)
    exact (Heap.set_other _ _ hqp).trans (Heap.set_other _ _ hqs)
  · have hkr : Ctx.before kr = [] := by
      clear * - hside
      induction kr with
      | nil => rfl
      | cons f kr ih =>
        rw [Ctx.before, ih fun g hg => hside g (List.mem_cons_of_mem _ hg), Frame.before,
          hside f List.mem_cons_self]
        rfl
    rw [hlT, hplug, Ctx.toList_plug]
    simp [ColorTree.toList, Ctx.toList_plug, hkr]

/-- `rb_erase` takes a node out of a red-black tree. -/
theorem rbErase_layout {fuel : Nat} {c : Color} {p : Ptr} {l r : ColorTree Ptr}
    (h : (k.plug (.node c l p r)).toList.Nodup) (hrb : (k.plug (.node c l p r)).RedBlack)
    (hfuel : (k.plug (.node c l p r)).toList.length < fuel) :
    ∃ T M', rbErase fuel (layout M (k.plug (.node c l p r))) p = .ok (layout M' T) ∧
      (∀ q, q ≠ p → q ∉ T.toList → M' q = M q) ∧
      T.toList = k.before ++ (l.toList ++ r.toList) ++ k.after ∧ T.RedBlack := by
  have hread := read_layout (M := M) h
  cases l with
  | nil =>
    obtain ⟨T, M', hrun, hbase, hl, hT⟩ := rbEraseOne_layout (M := M) (d := .left) h hrb hfuel
    refine ⟨T, M', ?_, fun q hq _ => hbase q hq, by rw [hl, Ctx.toList_plug]; rfl, hT⟩
    rw [rbErase, hread, ok_bind]
    exact hrun
  | node cl ll a lr =>
    cases r with
    | nil =>
      obtain ⟨T, M', hrun, hbase, hl, hT⟩ := rbEraseOne_layout (M := M) (d := .right) h hrb
        hfuel
      refine ⟨T, M', ?_, fun q hq _ => hbase q hq, ?_, hT⟩
      · rw [rbErase, hread, ok_bind]
        exact hrun
      · rw [hl, Ctx.toList_plug]
        simp [ColorTree.toList]
    | node cr rl b rr =>
      obtain ⟨T, M', hrun, hT⟩ := rbEraseTwo_layout (M := M) h hrb (by simp) (by simp) hfuel
      refine ⟨T, M', ?_, hT⟩
      rw [rbErase, hread, ok_bind]
      exact hrun

end Hashish
