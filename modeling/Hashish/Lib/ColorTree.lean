import Mathlib.Data.List.Basic
import Mathlib.Data.Nat.Log
import Mathlib.Tactic.Ring

/-!
# Coloured binary trees and their contexts

Binary trees with a colour at each node, and one-hole contexts as lists of
frames, the innermost first. A tree with a distinguished subtree is
`plug k t`. The two sides of a node are treated alike: `branch d` puts its first
subtree on side `d`.

* `toList_plug`: the in-order list of a plugged context.
* `plug_redBlack`, `redBlack_plug`: a plugged context is a red-black tree exactly
  when subtree and context agree on the black height and no red meets a red.
* `RedBlack.depth_le`: the depth is at most twice the logarithm of the size.
* `before_of_path`, `after_of_path`: in a sorted tree, comparisons along the path
  to the hole decide the comparisons with everything beside the hole.
-/

namespace Hashish.Lib

inductive Color
  | red
  | black
deriving DecidableEq, Repr

inductive Side
  | left
  | right
deriving DecidableEq, Repr

def Side.flip : Side → Side
  | .left => .right
  | .right => .left

@[simp] theorem Side.flip_flip (d : Side) : d.flip.flip = d := by cases d <;> rfl

@[simp] theorem Side.flip_ne (d : Side) : d.flip ≠ d := by cases d <;> decide

theorem Side.eq_or_eq_flip (d d' : Side) : d' = d ∨ d' = d.flip := by
  cases d <;> cases d' <;> decide

inductive ColorTree (α : Type)
  | nil
  | node (c : Color) (l : ColorTree α) (a : α) (r : ColorTree α)
deriving DecidableEq, Repr

namespace ColorTree

variable {α : Type}

def root : ColorTree α → Option α
  | nil => none
  | node _ _ a _ => some a

/-- The colour of the root. Empty trees count as black. -/
def color : ColorTree α → Color
  | nil => .black
  | node c _ _ _ => c

/-- The tree with its root coloured black. -/
def blacken : ColorTree α → ColorTree α
  | nil => nil
  | node _ l a r => node .black l a r

/-- The in-order list of the labels. -/
def toList : ColorTree α → List α
  | nil => []
  | node _ l a r => l.toList ++ a :: r.toList

/-- The pre-order list of the labels. -/
def preorder : ColorTree α → List α
  | nil => []
  | node _ l a r => a :: (l.preorder ++ r.preorder)

def depth : ColorTree α → Nat
  | nil => 0
  | node _ l _ r => max l.depth r.depth + 1

/-- The node with colour `c` and label `a` that has `near` on side `d`. -/
def branch (d : Side) (c : Color) (near : ColorTree α) (a : α) (far : ColorTree α) : ColorTree α :=
  match d with
  | .left => node c near a far
  | .right => node c far a near

@[simp] theorem root_node (c : Color) (l r : ColorTree α) (a : α) : (node c l a r).root = some a := rfl

@[simp] theorem root_branch (d : Side) (c : Color) (near far : ColorTree α) (a : α) :
    (branch d c near a far).root = some a := by cases d <;> rfl

@[simp] theorem color_branch (d : Side) (c : Color) (near far : ColorTree α) (a : α) :
    (branch d c near a far).color = c := by cases d <;> rfl

theorem branch_flip (d : Side) (c : Color) (near far : ColorTree α) (a : α) :
    branch d.flip c near a far = branch d c far a near := by cases d <;> rfl

/-- Every non-empty tree is a branch towards any side. -/
theorem eq_branch (d : Side) (c : Color) (l r : ColorTree α) (a : α) :
    ∃ near far, node c l a r = branch d c near a far := by
  cases d
  · exact ⟨l, r, rfl⟩
  · exact ⟨r, l, rfl⟩

theorem eq_nil_of_root {t : ColorTree α} (h : t.root = none) : t = nil := by
  cases t with
  | nil => rfl
  | node => cases h

theorem root_mem {t : ColorTree α} {a : α} (h : t.root = some a) : a ∈ t.toList := by
  cases t with
  | nil => cases h
  | node c l b r =>
    cases h
    simp [toList]

theorem preorder_perm (t : ColorTree α) : t.preorder.Perm t.toList := by
  induction t with
  | nil => exact .nil
  | node c l a r ihl ihr => exact ((ihl.append ihr).cons a).trans List.perm_middle.symm

@[simp] theorem toList_blacken (t : ColorTree α) : t.blacken.toList = t.toList := by cases t <;> rfl

@[simp] theorem color_blacken (t : ColorTree α) : t.blacken.color = .black := by cases t <;> rfl

theorem blacken_of_black {t : ColorTree α} (h : t.color = .black) : t.blacken = t := by
  cases t with
  | nil => rfl
  | node c l a r => cases h; rfl

end ColorTree

/-! ## Relabelling -/

namespace ColorTree

variable {α β : Type}

def map (f : α → β) : ColorTree α → ColorTree β
  | nil => nil
  | node c l a r => node c (l.map f) (f a) (r.map f)

@[simp] theorem root_map (f : α → β) (t : ColorTree α) : (t.map f).root = t.root.map f := by
  cases t <;> rfl

@[simp] theorem color_map (f : α → β) (t : ColorTree α) : (t.map f).color = t.color := by
  cases t <;> rfl

@[simp] theorem toList_map (f : α → β) (t : ColorTree α) : (t.map f).toList = t.toList.map f := by
  induction t with
  | nil => rfl
  | node c l a r ihl ihr => simp [map, toList, ihl, ihr]

@[simp] theorem depth_map (f : α → β) (t : ColorTree α) : (t.map f).depth = t.depth := by
  induction t with
  | nil => rfl
  | node c l a r ihl ihr => simp [map, depth, ihl, ihr]

/-- A tree whose in-order list comes from other labels comes from a tree of these. -/
theorem exists_map {f : α → β} {t : ColorTree β} {l : List α} (h : t.toList = l.map f) :
    ∃ s : ColorTree α, s.map f = t ∧ s.toList = l := by
  induction t generalizing l with
  | nil =>
    refine ⟨nil, rfl, ?_⟩
    cases l with
    | nil => rfl
    | cons a l => cases h
  | node c tl b tr ihl ihr =>
    obtain ⟨l₁, l₂, rfl, h₁, h₂⟩ := List.map_eq_append_iff.mp h.symm
    obtain ⟨a, l₃, rfl, rfl, h₃⟩ := List.map_eq_cons_iff.mp h₂
    obtain ⟨s₁, rfl, rfl⟩ := ihl h₁.symm
    obtain ⟨s₂, rfl, rfl⟩ := ihr h₃.symm
    exact ⟨node c s₁ a s₂, rfl, rfl⟩

theorem depth_le_length (t : ColorTree α) : t.depth ≤ t.toList.length := by
  induction t with
  | nil => exact Nat.le_refl _
  | node c l a r ihl ihr =>
    simp only [depth, toList, List.length_append, List.length_cons]
    omega

end ColorTree

/-! ## Contexts -/

/-- One step from a hole to the node above it. `side` is the side the hole is on. -/
structure Frame (α : Type) where
  side : Side
  color : Color
  label : α
  sibling : ColorTree α

/-- The path from a hole to the root, innermost frame first. -/
abbrev Ctx (α : Type) := List (Frame α)

namespace Frame

variable {α : Type}

def fill (f : Frame α) (t : ColorTree α) : ColorTree α :=
  ColorTree.branch f.side f.color t f.label f.sibling

/-- The labels left of the hole. -/
def before (f : Frame α) : List α :=
  match f.side with
  | .left => []
  | .right => f.sibling.toList ++ [f.label]

/-- The labels right of the hole. -/
def after (f : Frame α) : List α :=
  match f.side with
  | .left => f.label :: f.sibling.toList
  | .right => []

theorem toList_fill (f : Frame α) (t : ColorTree α) :
    (f.fill t).toList = f.before ++ t.toList ++ f.after := by
  obtain ⟨d, c, a, s⟩ := f
  cases d <;> simp [fill, ColorTree.branch, before, after, ColorTree.toList]

end Frame

def Frame.map {α β : Type} (g : α → β) (f : Frame α) : Frame β :=
  ⟨f.side, f.color, g f.label, f.sibling.map g⟩

theorem Frame.map_fill {α β : Type} (g : α → β) (f : Frame α) (t : ColorTree α) :
    (f.fill t).map g = (f.map g).fill (t.map g) := by
  obtain ⟨d, c, a, s⟩ := f
  cases d <;> rfl

namespace Ctx

variable {α : Type}

def plug : Ctx α → ColorTree α → ColorTree α
  | [], t => t
  | f :: k, t => plug k (f.fill t)

/-- The label above the hole. -/
def parent : Ctx α → Option α
  | [] => none
  | f :: _ => some f.label

@[simp] theorem parent_cons (f : Frame α) (k : Ctx α) : parent (f :: k) = some f.label := rfl

def before : Ctx α → List α
  | [] => []
  | f :: k => before k ++ f.before

def after : Ctx α → List α
  | [] => []
  | f :: k => f.after ++ after k

theorem toList_plug (k : Ctx α) (t : ColorTree α) :
    (k.plug t).toList = k.before ++ t.toList ++ k.after := by
  induction k generalizing t with
  | nil => simp [plug, before, after]
  | cons f k ih => simp [plug, ih, before, after, Frame.toList_fill]

@[simp] theorem plug_append (k₁ k₂ : Ctx α) (t : ColorTree α) :
    Ctx.plug (k₁ ++ k₂) t = k₂.plug (k₁.plug t) := by
  induction k₁ generalizing t with
  | nil => rfl
  | cons f k ih => exact ih _

/-- A tree has more labels than the path to any of its subtrees has frames. -/
theorem length_le_toList (k : Ctx α) (t : ColorTree α) :
    k.length + t.toList.length ≤ (k.plug t).toList.length := by
  induction k generalizing t with
  | nil => simp [plug]
  | cons f k ih =>
    have h := ih (f.fill t)
    have hf : t.toList.length + 1 ≤ (f.fill t).toList.length := by
      obtain ⟨d, c, a, s⟩ := f
      cases d <;> simp [Frame.fill, ColorTree.branch, ColorTree.toList]
    simp only [plug, List.length_cons]
    omega

/-- Relabel a context. -/
def relabel {β : Type} (g : α → β) (k : Ctx α) : Ctx β := List.map (Frame.map g) k

theorem map_plug {β : Type} (g : α → β) (k : Ctx α) (t : ColorTree α) :
    (k.plug t).map g = (k.relabel g).plug (t.map g) := by
  induction k generalizing t with
  | nil => rfl
  | cons f k ih => rw [plug, ih, Frame.map_fill]; rfl

theorem before_relabel {β : Type} (g : α → β) (k : Ctx α) :
    (k.relabel g).before = k.before.map g := by
  induction k with
  | nil => rfl
  | cons f k ih =>
    obtain ⟨d, c, a, s⟩ := f
    rw [before, List.map_append, ← ih]
    cases d <;> simp [relabel, before, Frame.map, Frame.before]

theorem after_relabel {β : Type} (g : α → β) (k : Ctx α) :
    (k.relabel g).after = k.after.map g := by
  induction k with
  | nil => rfl
  | cons f k ih =>
    obtain ⟨d, c, a, s⟩ := f
    rw [after, List.map_append, ← ih]
    cases d <;> simp [relabel, after, Frame.map, Frame.after]

end Ctx

/-! ## Red-black trees -/

namespace ColorTree

variable {α : Type}

/-- `t.RB n`: every path of `t` has `n` black nodes, and no red node has a red child. -/
def RB : ColorTree α → Nat → Prop
  | nil, n => n = 0
  | node .red l _ r, n => l.color = .black ∧ r.color = .black ∧ RB l n ∧ RB r n
  | node .black l _ r, n => ∃ m, n = m + 1 ∧ RB l m ∧ RB r m

/-- A red-black tree: its root is black and it obeys the colour rules. -/
def RedBlack (t : ColorTree α) : Prop := t.color = .black ∧ ∃ n, t.RB n

theorem rb_red {d : Side} {near far : ColorTree α} {a : α} {n : Nat} :
    (branch d .red near a far).RB n ↔
      near.color = .black ∧ far.color = .black ∧ near.RB n ∧ far.RB n := by
  cases d with
  | left => exact Iff.rfl
  | right =>
    simp only [branch, RB]
    tauto

theorem rb_black {d : Side} {near far : ColorTree α} {a : α} {n : Nat} :
    (branch d .black near a far).RB (n + 1) ↔ near.RB n ∧ far.RB n := by
  cases d with
  | left => simp only [branch, RB, Nat.add_right_cancel_iff, exists_eq_left']
  | right =>
    simp only [branch, RB, Nat.add_right_cancel_iff, exists_eq_left']
    tauto

/-- Blackening a red root adds one to the black height. -/
theorem RB.blacken_red {t : ColorTree α} {n : Nat} (h : t.RB n) (hc : t.color = .red) :
    t.blacken.RB (n + 1) := by
  cases t with
  | nil => cases hc
  | node c l a r =>
    cases hc
    exact ⟨n, rfl, h.2.2⟩

/-- A tree of black height at least one has a root. -/
theorem RB.root_ne_none {t : ColorTree α} {n : Nat} (h : t.RB (n + 1)) : t ≠ nil := by
  rintro rfl
  cases h

theorem RB.depth_le {t : ColorTree α} {n : Nat} (h : t.RB n) :
    t.depth ≤ 2 * n + (if t.color = .red then 1 else 0) := by
  induction t generalizing n with
  | nil => simp [depth]
  | node c l a r ihl ihr =>
    cases c with
    | red =>
      obtain ⟨hl, hr, hln, hrn⟩ := h
      have h₁ := ihl hln
      have h₂ := ihr hrn
      simp only [hl, hr, reduceCtorEq, if_false] at h₁ h₂
      simp only [depth, color, if_true]
      omega
    | black =>
      obtain ⟨m, rfl, hln, hrn⟩ := h
      have h₁ := ihl hln
      have h₂ := ihr hrn
      simp only [depth, color, reduceCtorEq, if_false]
      split at h₁ <;> split at h₂ <;> omega

theorem RB.pow_le {t : ColorTree α} {n : Nat} (h : t.RB n) : 2 ^ n ≤ t.toList.length + 1 := by
  induction t generalizing n with
  | nil => cases h; simp
  | node c l a r ihl ihr =>
    simp only [toList, List.length_append, List.length_cons]
    cases c with
    | red =>
      have h₁ := ihl h.2.2.1
      omega
    | black =>
      obtain ⟨m, rfl, hln, hrn⟩ := h
      have h₁ := ihl hln
      have h₂ := ihr hrn
      rw [Nat.pow_succ]
      omega

/-- A red-black tree is at most twice as deep as a perfectly balanced one. -/
theorem RedBlack.depth_le {t : ColorTree α} (h : t.RedBlack) :
    t.depth ≤ 2 * Nat.log 2 (t.toList.length + 1) := by
  obtain ⟨hc, n, hn⟩ := h
  have hd := hn.depth_le
  have hlog : n ≤ Nat.log 2 (t.toList.length + 1) :=
    Nat.le_log_of_pow_le (by decide) hn.pow_le
  simp only [hc, reduceCtorEq, if_false] at hd
  omega

end ColorTree

namespace Ctx

variable {α : Type}

/-- The hole may hold a red root: there is a node above it, and that node is black. -/
def RedOk : Ctx α → Prop
  | [] => False
  | f :: _ => f.color = .black

/-- `k.RB n`: plugging a black tree of black height `n` gives a red-black tree. -/
def RB : Ctx α → Nat → Prop
  | [], _ => True
  | f :: k, n =>
    f.sibling.RB n ∧
      match f.color with
      | .red => f.sibling.color = .black ∧ RedOk k ∧ RB k n
      | .black => RB k (n + 1)

theorem plug_redBlack {k : Ctx α} {t : ColorTree α} {n : Nat} (hk : k.RB n) (ht : t.RB n)
    (hc : t.color = .red → k.RedOk) : (k.plug t).RedBlack := by
  induction k generalizing t n with
  | nil =>
    refine ⟨?_, n, ht⟩
    cases h : t.color with
    | black => exact h
    | red => exact (hc h).elim
  | cons f k ih =>
    obtain ⟨d, c, a, s⟩ := f
    cases c with
    | red =>
      obtain ⟨hs, hsc, hok, hk'⟩ := hk
      have htc : t.color = .black := by
        cases h : t.color with
        | black => rfl
        | red => cases hc h
      exact ih hk' (ColorTree.rb_red.mpr ⟨htc, hsc, ht, hs⟩) fun _ => hok
    | black =>
      obtain ⟨hs, hk'⟩ := hk
      exact ih hk' (ColorTree.rb_black.mpr ⟨ht, hs⟩) fun h => by simp [Frame.fill] at h

theorem redBlack_plug {k : Ctx α} {t : ColorTree α} (h : (k.plug t).RedBlack) :
    ∃ n, k.RB n ∧ t.RB n ∧ (t.color = .red → k.RedOk) := by
  induction k generalizing t with
  | nil =>
    obtain ⟨hc, n, hn⟩ := h
    exact ⟨n, trivial, hn, fun hr => by rw [show t.color = .black from hc] at hr; cases hr⟩
  | cons f k ih =>
    obtain ⟨n, hk, ht, hc⟩ := ih h
    obtain ⟨d, c, a, s⟩ := f
    cases c with
    | red =>
      obtain ⟨htc, hsc, ht', hs⟩ := ColorTree.rb_red.mp ht
      refine ⟨n, ⟨hs, hsc, hc (by simp [Frame.fill]), hk⟩, ht', fun hr => ?_⟩
      rw [htc] at hr
      cases hr
    | black =>
      obtain ⟨m, rfl⟩ : ∃ m, n = m + 1 := by
        cases d <;> exact ⟨_, ht.choose_spec.1⟩
      obtain ⟨ht', hs⟩ := ColorTree.rb_black.mp ht
      exact ⟨m, ⟨hs, hk⟩, ht', fun _ => rfl⟩

/-- The colour rules do not see the labels of a path. -/
theorem RB.relabel {k₁ k₂ : Ctx α} {d : Side} {c : Color} {a b : α} {s : ColorTree α} {n : Nat}
    (h : RB (k₁ ++ ⟨d, c, a, s⟩ :: k₂) n) : RB (k₁ ++ ⟨d, c, b, s⟩ :: k₂) n := by
  induction k₁ generalizing n with
  | nil => exact h
  | cons f k₁ ih =>
    obtain ⟨d', c', a', s'⟩ := f
    cases c' with
    | red =>
      obtain ⟨hs, hsc, hok, hk⟩ := h
      refine ⟨hs, hsc, ?_, ih hk⟩
      cases k₁ <;> exact hok
    | black => exact ⟨h.1, ih h.2⟩

/-! ## Sorted trees -/

section Sorted

variable {R : α → α → Prop} {P : α → Prop} {k : Ctx α} {t : ColorTree α}

/-- When the labels of the path on whose right the hole lies satisfy `P`, and `P` spreads to the
left, everything left of the hole satisfies `P`. -/
theorem before_of_path (hs : (k.plug t).toList.Pairwise R)
    (hP : ∀ x ∈ (k.plug t).toList, ∀ y ∈ (k.plug t).toList, R x y → P y → P x)
    (hpath : ∀ f ∈ k, f.side = .right → P f.label) : ∀ x ∈ k.before, P x := by
  induction k generalizing t with
  | nil => simp [before]
  | cons f k ih =>
    intro x hx
    rw [before, List.mem_append] at hx
    rcases hx with hx | hx
    · exact ih hs hP (fun g hg => hpath g (List.mem_cons_of_mem _ hg)) x hx
    · obtain ⟨d, c, a, s⟩ := f
      cases d with
      | left => simp [Frame.before] at hx
      | right =>
        have ha : P a := hpath _ List.mem_cons_self rfl
        simp only [Frame.before, List.mem_append, List.mem_singleton] at hx
        rcases hx with hx | rfl
        · rw [plug, toList_plug] at hs hP
          simp only [Frame.toList_fill, Frame.before] at hs hP
          have hxa : R x a := by
            have := (List.pairwise_append.mp (List.pairwise_append.mp hs).1).2.1
            have := (List.pairwise_append.mp (List.pairwise_append.mp
              (List.pairwise_append.mp this).1).1).2.2
            exact this x hx a (List.mem_singleton_self a)
          exact hP x (by simp [hx]) a (by simp) hxa ha
        · exact ha

/-- The mirror image of `before_of_path`. -/
theorem after_of_path (hs : (k.plug t).toList.Pairwise R)
    (hP : ∀ x ∈ (k.plug t).toList, ∀ y ∈ (k.plug t).toList, R x y → P x → P y)
    (hpath : ∀ f ∈ k, f.side = .left → P f.label) : ∀ x ∈ k.after, P x := by
  induction k generalizing t with
  | nil => simp [after]
  | cons f k ih =>
    intro x hx
    rw [after, List.mem_append] at hx
    rcases hx with hx | hx
    · obtain ⟨d, c, a, s⟩ := f
      cases d with
      | right => simp [Frame.after] at hx
      | left =>
        have ha : P a := hpath _ List.mem_cons_self rfl
        simp only [Frame.after, List.mem_cons] at hx
        rcases hx with rfl | hx
        · exact ha
        · rw [plug, toList_plug] at hs hP
          simp only [Frame.toList_fill, Frame.after] at hs hP
          have hax : R a x := by
            have := (List.pairwise_append.mp (List.pairwise_append.mp hs).1).2.1
            exact (List.pairwise_cons.mp (List.pairwise_append.mp this).2.1).1 x hx
          exact hP a (by simp) x (by simp [hx]) hax ha
    · exact ih hs hP (fun g hg => hpath g (List.mem_cons_of_mem _ hg)) x hx

end Sorted

end Ctx

end Hashish.Lib
