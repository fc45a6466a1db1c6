import Mathlib.Data.List.Basic
import Mathlib.Data.List.Pairwise
import Mathlib.Data.List.Perm.Basic

/-!
# Finite maps modulo a key relation

A finite map is a list of pairs whose keys are pairwise different modulo a
decidable relation `r` on keys. The invariant is a field, so that a map with a
key twice cannot be built. When `r` is an equivalence, a lookup does not depend
on the order of the pairs; a store that holds a permutation of the pairs
answers as the map does.
-/

namespace Hashish.Lib

variable {K V : Type}

/-- A finite map from `K` to `V`, keys being compared with `r`. -/
structure FMap (K V : Type) (r : K → K → Prop) where
  pairs : List (K × V)
  distinct : pairs.Pairwise fun a b => ¬ r a.1 b.1

namespace FMap

variable {r : K → K → Prop}

/-- The map without entries. -/
def empty : FMap K V r := ⟨[], List.Pairwise.nil⟩

/-- The number of keys. -/
def size (m : FMap K V r) : Nat := m.pairs.length

/-- No key of the map is `r`-related to `k`. -/
def Absent (m : FMap K V r) (k : K) : Prop := ∀ p ∈ m.pairs, ¬ r k p.1

instance [DecidableRel r] (m : FMap K V r) (k : K) : Decidable (m.Absent k) :=
  inferInstanceAs (Decidable (∀ p ∈ m.pairs, ¬ r k p.1))

/-- Add a pair whose key is absent. -/
def insertNew (m : FMap K V r) (k : K) (v : V) (h : m.Absent k) : FMap K V r :=
  ⟨(k, v) :: m.pairs, List.pairwise_cons.mpr ⟨h, m.distinct⟩⟩

theorem Absent.insertNew {m : FMap K V r} {k k' : K} {v : V} (hk : m.Absent k) (hne : ¬ r k k')
    (h : m.Absent k') : (m.insertNew k' v h).Absent k :=
  List.forall_mem_cons.mpr ⟨hne, hk⟩

variable [DecidableRel r]

/-- The value stored under `k`. -/
def get (m : FMap K V r) (k : K) : Option V :=
  (m.pairs.find? fun p => decide (r k p.1)).map Prod.snd

/-- Drop the pair stored under `k`. -/
def erase (m : FMap K V r) (k : K) : FMap K V r :=
  ⟨m.pairs.eraseP fun p => decide (r k p.1), m.distinct.sublist List.eraseP_sublist⟩

theorem get_of_absent {m : FMap K V r} {k : K} (h : m.Absent k) : m.get k = none := by
  have hn : m.pairs.find? (fun p => decide (r k p.1)) = none :=
    List.find?_eq_none.mpr fun p hp => by simpa using h p hp
  simp [get, hn]

theorem get_insertNew {m : FMap K V r} {k k' : K} {v : V} (h : m.Absent k) :
    (m.insertNew k v h).get k' = if r k' k then some v else m.get k' := by
  by_cases hk : r k' k <;> simp [get, insertNew, hk]

theorem get_insertNew_self {m : FMap K V r} {k : K} {v : V} (hk : r k k) (h : m.Absent k) :
    (m.insertNew k v h).get k = some v := by
  rw [get_insertNew, if_pos hk]

theorem Absent.erase {m : FMap K V r} {k k' : K} (hk : m.Absent k) : (m.erase k').Absent k :=
  fun p hp => hk p (List.mem_of_mem_eraseP hp)

theorem erase_of_absent {m : FMap K V r} {k : K} (h : m.Absent k) : m.erase k = m := by
  have he : m.pairs.eraseP (fun p => decide (r k p.1)) = m.pairs :=
    List.eraseP_of_forall_not fun p hp => by simpa using h p hp
  simp [erase, he]

/-! ## The relation as an equivalence -/

section Equivalence

variable (hr : Equivalence r)
include hr

omit [DecidableRel r] in
/-- At most one pair of a map carries a key related to `k`. -/
theorem pair_unique {m : FMap K V r} {k : K} {p q : K × V} (hp : p ∈ m.pairs) (hq : q ∈ m.pairs)
    (hkp : r k p.1) (hkq : r k q.1) : p = q := by
  by_contra hne
  have hsymm : Std.Symm fun a b : K × V => ¬ r a.1 b.1 := ⟨fun _ _ h h' => h (hr.symm h')⟩
  exact m.distinct.forall hp hq hne (hr.trans (hr.symm hkp) hkq)

theorem get_of_mem {m : FMap K V r} {k : K} {p : K × V} (hp : p ∈ m.pairs) (hk : r k p.1) :
    m.get k = some p.2 := by
  have hs : (m.pairs.find? fun p => decide (r k p.1)).isSome := by
    rw [List.find?_isSome]
    exact ⟨p, hp, by simpa using hk⟩
  obtain ⟨q, hq⟩ := Option.isSome_iff_exists.mp hs
  have hkq : r k q.1 := by simpa using List.find?_some hq
  have hpq : p = q := pair_unique hr hp (List.mem_of_find?_eq_some hq) hk hkq
  simp [get, hq, hpq]

theorem get_eq_some_iff {m : FMap K V r} {k : K} {v : V} :
    m.get k = some v ↔ ∃ p ∈ m.pairs, r k p.1 ∧ p.2 = v := by
  constructor
  · intro h
    obtain ⟨p, hp, rfl⟩ := Option.map_eq_some_iff.mp h
    exact ⟨p, List.mem_of_find?_eq_some hp, by simpa using List.find?_some hp, rfl⟩
  · rintro ⟨p, hp, hk, rfl⟩
    exact get_of_mem hr hp hk

theorem get_eq_none_iff {m : FMap K V r} {k : K} : m.get k = none ↔ m.Absent k := by
  refine ⟨fun h p hp hk => ?_, get_of_absent⟩
  rw [get_of_mem hr hp hk] at h
  cases h

/-- Erasing takes out exactly the pair whose key is related. -/
theorem perm_erase {m : FMap K V r} {k : K} {p : K × V} (hp : p ∈ m.pairs) (hk : r k p.1) :
    m.pairs.Perm (p :: (m.erase k).pairs) := by
  obtain ⟨q, l₁, l₂, _, hkq, hl, he⟩ :=
    List.exists_of_eraseP (p := fun p => decide (r k p.1)) hp (by simpa using hk)
  have hqm : q ∈ m.pairs := by rw [hl]; simp
  have hpq : p = q := pair_unique hr hp hqm hk (by simpa using hkq)
  subst hpq
  show m.pairs.Perm (p :: m.pairs.eraseP fun p => decide (r k p.1))
  rw [he, hl]
  exact List.perm_middle

theorem get_erase {m : FMap K V r} {k k' : K} :
    (m.erase k).get k' = if r k' k then none else m.get k' := by
  by_cases hm : m.Absent k
  · rw [erase_of_absent hm]
    split
    next hk => exact get_of_absent fun p hp hk' => hm p hp (hr.trans (hr.symm hk) hk')
    next => rfl
  · obtain ⟨v, hv⟩ := Option.ne_none_iff_exists'.mp fun h => hm ((get_eq_none_iff hr).mp h)
    obtain ⟨p, hp, hkp, -⟩ := (get_eq_some_iff hr).mp hv
    have hperm := perm_erase hr hp hkp
    -- the pairs that stay are those that were there, without the one for `k`
    have hstay : ∀ q, q ∈ (m.erase k).pairs ↔ q ∈ m.pairs ∧ ¬ r k q.1 := by
      have hsymm : Std.Symm fun a b : K × V => ¬ r a.1 b.1 := ⟨fun _ _ h h' => h (hr.symm h')⟩
      have hdistinct := (hperm.pairwise_iff fun h => hsymm.symm _ _ h).mp m.distinct
      intro q
      rw [hperm.mem_iff, List.mem_cons]
      constructor
      · intro hq
        refine ⟨.inr hq, fun hkq => ?_⟩
        exact List.rel_of_pairwise_cons hdistinct hq (hr.trans (hr.symm hkp) hkq)
      · rintro ⟨rfl | hq, hkq⟩
        · exact (hkq hkp).elim
        · exact hq
    refine Option.ext fun v => ?_
    rw [get_eq_some_iff hr]
    split
    next hk =>
      refine iff_of_false ?_ (by simp)
      rintro ⟨q, hq, hkq, -⟩
      exact ((hstay q).mp hq).2 (hr.trans (hr.symm hk) hkq)
    next hk =>
      rw [get_eq_some_iff hr]
      constructor
      · rintro ⟨q, hq, hkq⟩
        exact ⟨q, ((hstay q).mp hq).1, hkq⟩
      · rintro ⟨q, hq, hkq, hv⟩
        exact ⟨q, (hstay q).mpr ⟨hq, fun h => hk (hr.trans hkq (hr.symm h))⟩, hkq, hv⟩

end Equivalence

end FMap

end Hashish.Lib
