import Mathlib.Data.List.Basic
import Mathlib.Data.List.Forall2
import Mathlib.Data.List.Perm.Basic
import Mathlib.Data.List.Perm.Lattice

/-!
# Lists of buckets

A table is a list of buckets, its contents the flattened list. Changing one
bucket changes the contents by that bucket only, whatever the others hold.
-/

namespace Hashish.Lib

variable {α : Type} {bs : List (List α)} {l : List α} {b : Nat}

/-- The contents apart from bucket `b`. -/
def others (bs : List (List α)) (b : Nat) : List α := (bs.eraseIdx b).flatten

theorem flatten_perm (h : bs[b]? = some l) : bs.flatten.Perm (l ++ others bs b) := by
  induction bs generalizing b with
  | nil => simp at h
  | cons m bs ih =>
    cases b with
    | zero =>
      simp only [List.getElem?_cons_zero, Option.some_inj] at h
      subst h
      exact .refl _
    | succ b =>
      simp only [others, List.flatten_cons, List.eraseIdx_cons_succ]
      refine ((ih (by simpa using h)).append_left m).trans ?_
      exact List.perm_append_comm_assoc _ _ _

theorem others_set (l' : List α) : others (bs.set b l') b = others bs b := by
  simp only [others, List.eraseIdx_set_eq]

/-- The contents after bucket `b` was replaced. -/
theorem flatten_set_perm (h : bs[b]? = some l) (l' : List α) :
    (bs.set b l').flatten.Perm (l' ++ others bs b) := by
  have hb : b < bs.length := (List.getElem?_eq_some_iff.mp h).1
  rw [← others_set l']
  exact flatten_perm (by simp [hb])

/-- The contents of another bucket are among the others. -/
theorem mem_others {c : Nat} {m : List α} (hc : bs[c]? = some m) (hcb : c ≠ b) {a : α}
    (ha : a ∈ m) : a ∈ others bs b := by
  rw [others, List.mem_flatten]
  refine ⟨m, List.mem_eraseIdx_iff_getElem?.mpr ⟨c, hcb, hc⟩, ha⟩

theorem forall₂_trans {R : α → α → Prop} (hR : ∀ {a b c}, R a b → R b c → R a c) {xs ys zs : List α}
    (h : List.Forall₂ R xs ys) (h' : List.Forall₂ R ys zs) : List.Forall₂ R xs zs := by
  induction h generalizing zs with
  | nil => exact h'
  | cons hab _ ih =>
    cases h' with
    | cons hbc h' => exact .cons (hR hab hbc) (ih h')

theorem forall₂_getElem? {β : Type} {R : α → β → Prop} {xs : List α} {ys : List β}
    (h : List.Forall₂ R xs ys) (i : Nat) :
    (xs[i]? = none ∧ ys[i]? = none) ∨ ∃ x y, xs[i]? = some x ∧ ys[i]? = some y ∧ R x y := by
  induction h generalizing i with
  | nil => exact .inl ⟨rfl, rfl⟩
  | cons hab _ ih =>
    cases i with
    | zero => exact .inr ⟨_, _, rfl, rfl, hab⟩
    | succ i => exact ih i

theorem forall₂_mem {β : Type} {R : α → β → Prop} {xs : List α} {ys : List β}
    (h : List.Forall₂ R xs ys) {x : α} (hx : x ∈ xs) : ∃ y ∈ ys, R x y := by
  obtain ⟨i, hi⟩ := List.mem_iff_getElem?.mp hx
  rcases forall₂_getElem? h i with ⟨hnone, -⟩ | ⟨x', y, hx', hy, hxy⟩
  · rw [hi] at hnone
    cases hnone
  · rw [hi, Option.some_inj] at hx'
    exact ⟨y, List.mem_of_getElem? hy, hx' ▸ hxy⟩

theorem forall₂_set {β : Type} {R : α → β → Prop} {xs : List α} {ys : List β} {x : α} {y : β} {i : Nat}
    (h : List.Forall₂ R xs ys) (hR : R x y) : List.Forall₂ R (xs.set i x) (ys.set i y) := by
  induction h generalizing i with
  | nil => exact .nil
  | cons hab h ih =>
    cases i with
    | zero => exact .cons hR h
    | succ i => exact .cons hab ih

/-- Reordering one bucket. -/
theorem forall₂_perm_set (h : bs[b]? = some l) {l' : List α} (hl : l'.Perm l) :
    List.Forall₂ List.Perm (bs.set b l') bs := by
  induction bs generalizing b with
  | nil => exact .nil
  | cons m bs ih =>
    cases b with
    | zero =>
      simp only [List.getElem?_cons_zero, Option.some_inj] at h
      subst h
      exact .cons hl (List.forall₂_same.mpr fun _ _ => .refl _)
    | succ b => exact .cons (.refl _) (ih (by simpa using h))

/-- A list at one of its members, and with the member replaced. -/
theorem exists_split {β : Type} {l : List β} {i : Nat} {x : β} (h : l[i]? = some x) :
    ∃ p q, l = p ++ x :: q ∧ ∀ y, l.set i y = p ++ y :: q := by
  obtain ⟨hi, rfl⟩ := List.getElem?_eq_some_iff.mp h
  refine ⟨l.take i, l.drop (i + 1), ?_, fun y => List.set_eq_take_append_cons_drop.trans (if_pos hi)⟩
  rw [List.getElem_cons_drop, List.take_append_drop]

theorem set_self {β : Type} {l : List β} {i : Nat} {x : β} (h : l[i]? = some x) : l.set i x = l := by
  obtain ⟨hi, rfl⟩ := List.getElem?_eq_some_iff.mp h
  exact List.set_getElem_self hi

end Hashish.Lib
