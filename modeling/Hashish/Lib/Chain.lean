import Mathlib.Data.List.Basic

/-!
# Linked chains in a heap

A chain is a sequence of objects in a heap, each of which points to the next
one. What an object shows of itself and where it points to is given by a
`Linkage`; the heap is any partial function from addresses to objects.
`Chain heap p l q` walks from the pointer `p` through the objects that show the
list `l`, and arrives at the pointer `q`.
-/

namespace Hashish.Lib

/-- How objects `O` at addresses `P` show values `α`, and where they point to. -/
structure Linkage (P O α : Type) where
  self : α → P
  next : O → Option P
  shows : O → α → Prop

namespace Linkage

variable {P O α : Type} (L : Linkage P O α) {heap heap' : P → Option O}

def Chain (heap : P → Option O) : Option P → List α → Option P → Prop
  | p, [], q => p = q
  | p, a :: l, q => p = some (L.self a) ∧
      ∃ o, heap (L.self a) = some o ∧ L.shows o a ∧ Chain heap (L.next o) l q

variable {L} {p q r : Option P} {l l₁ l₂ : List α} {a : α}

theorem chain_append : L.Chain heap p (l₁ ++ l₂) q ↔
    ∃ r, L.Chain heap p l₁ r ∧ L.Chain heap r l₂ q := by
  induction l₁ generalizing p with
  | nil => simp [Chain]
  | cons a l₁ ih =>
    simp only [List.cons_append, Chain, ih]
    constructor
    · rintro ⟨hp, o, ho, hs, r, h₁, h₂⟩
      exact ⟨r, ⟨hp, o, ho, hs, h₁⟩, h₂⟩
    · rintro ⟨r, ⟨hp, o, ho, hs, h₁⟩, h₂⟩
      exact ⟨hp, o, ho, hs, r, h₁, h₂⟩

/-- A chain only depends on the objects it visits. -/
theorem Chain.congr (h : L.Chain heap p l q) (hc : ∀ a ∈ l, heap' (L.self a) = heap (L.self a)) :
    L.Chain heap' p l q := by
  induction l generalizing p with
  | nil => exact h
  | cons a l ih =>
    obtain ⟨hp, o, ho, hs, hl⟩ := h
    exact ⟨hp, o, (hc a List.mem_cons_self).trans ho, hs,
      ih hl fun b hb => hc b (List.mem_cons_of_mem _ hb)⟩

/-- The chain of the null pointer is empty. -/
theorem Chain.eq_nil (h : L.Chain heap none l q) : l = [] := by
  cases l with
  | nil => rfl
  | cons a l => cases h.1

/-- A pointer and the heap determine a chain that ends at the null pointer. -/
theorem Chain.unique (hL : ∀ {o a b}, L.self a = L.self b → L.shows o a → L.shows o b → a = b)
    (h₁ : L.Chain heap p l₁ none) (h₂ : L.Chain heap p l₂ none) : l₁ = l₂ := by
  induction l₁ generalizing p l₂ with
  | nil =>
    cases h₁
    exact h₂.eq_nil.symm
  | cons a l₁ ih =>
    cases l₂ with
    | nil =>
      cases h₂
      cases h₁.1
    | cons b l₂ =>
      obtain ⟨rfl, o, ho, hs, h₁⟩ := h₁
      obtain ⟨hp, o', ho', hs', h₂⟩ := h₂
      have hself : L.self a = L.self b := Option.some_inj.mp hp
      obtain rfl : o = o' := Option.some_inj.mp (ho.symm.trans (hself ▸ ho'))
      rw [hL hself hs hs', ih h₁ h₂]

end Linkage

end Hashish.Lib
