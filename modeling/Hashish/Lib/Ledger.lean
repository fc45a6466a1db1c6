import Mathlib.Data.List.Perm.Basic

/-!
# Ledgers

A component takes resources and gives them back. The ledger lists what it holds. Giving back
what is not held has no booking, so a run of moves that can be booked gives nothing back twice,
and what it leaves in the ledger was never given back.

`Settles L ms L'`: the moves `ms` turn the ledger `L` into `L'`, whatever the order of the entries.
-/

namespace Hashish.Lib

/-- A resource is taken, or given back. -/
inductive Move (α : Type)
  | take (a : α)
  | give (a : α)
deriving DecidableEq, Repr

variable {α : Type} [DecidableEq α]

/-- Book the moves. -/
def settle : List α → List (Move α) → Option (List α)
  | L, [] => some L
  | L, .take a :: ms => settle (a :: L) ms
  | L, .give a :: ms => if a ∈ L then settle (L.erase a) ms else none

/-- The moves can be booked, and turn the one ledger into the other. -/
def Settles (L : List α) (ms : List (Move α)) (L' : List α) : Prop :=
  ∃ L₁, settle L ms = some L₁ ∧ L₁.Perm L'

variable {L L' M N : List α} {ms ns : List (Move α)} {a : α}

theorem settle_append : settle L (ms ++ ns) = (settle L ms).bind fun M => settle M ns := by
  induction ms generalizing L with
  | nil => rfl
  | cons m ms ih =>
    cases m with
    | take a => exact ih
    | give a =>
      rw [List.cons_append, settle, settle]
      by_cases ha : a ∈ L
      · rw [if_pos ha, if_pos ha, ih]
      · rw [if_neg ha, if_neg ha, Option.bind_none]

/-- Booking does not depend on the order of the ledger. -/
theorem settle_perm (h : L.Perm M) (hL : settle L ms = some L') :
    ∃ M', settle M ms = some M' ∧ L'.Perm M' := by
  induction ms generalizing L M with
  | nil =>
    cases hL
    exact ⟨M, rfl, h⟩
  | cons m ms ih =>
    cases m with
    | take a => exact ih (h.cons a) hL
    | give a =>
      rw [settle] at hL ⊢
      by_cases ha : a ∈ L
      · rw [if_pos ha] at hL
        rw [if_pos (h.mem_iff.mp ha)]
        exact ih (h.erase a) hL
      · rw [if_neg ha] at hL
        cases hL

namespace Settles

theorem of_perm (h : L.Perm L') : Settles L [] L' := ⟨L, rfl, h⟩

theorem perm (h : Settles L ms L') (hp : L'.Perm M) : Settles L ms M := by
  obtain ⟨L₁, hrun, hL₁⟩ := h
  exact ⟨L₁, hrun, hL₁.trans hp⟩

theorem trans (h : Settles L ms M) (h' : Settles M ns N) : Settles L (ms ++ ns) N := by
  obtain ⟨L₁, hrun, hL₁⟩ := h
  obtain ⟨M₁, hrun', hM₁⟩ := h'
  obtain ⟨N₁, hN, hp⟩ := settle_perm hL₁.symm hrun'
  refine ⟨N₁, ?_, hp.symm.trans hM₁⟩
  rw [settle_append, hrun, Option.bind_some, hN]

theorem take : Settles L [.take a] (a :: L) := ⟨a :: L, rfl, .refl _⟩

/-- Taking a list of resources. -/
theorem takes {as : List α} (h : (as ++ L).Perm L') : Settles L (as.map .take) L' := by
  induction as generalizing L with
  | nil => exact of_perm h
  | cons a as ih => exact take.trans (ih (List.perm_middle.trans h))

theorem give (h : L.Perm (a :: L')) : Settles L [.give a] L' := by
  refine ⟨L.erase a, ?_, ?_⟩
  · rw [settle, if_pos (h.mem_iff.mpr List.mem_cons_self)]
    rfl
  · simpa using h.erase a

/-- Giving back a list of held resources. -/
theorem gives {as : List α} (h : L.Perm (as ++ L')) : Settles L (as.map .give) L' := by
  induction as generalizing L with
  | nil => exact of_perm h
  | cons a as ih => exact (give h).trans (ih (.refl _))

/-- Other resources do not matter. -/
theorem frame (h : Settles L ms L') (M : List α) : Settles (L ++ M) ms (L' ++ M) := by
  obtain ⟨L₁, hrun, hL₁⟩ := h
  suffices hM : settle (L ++ M) ms = some (L₁ ++ M) from ⟨_, hM, hL₁.append_right M⟩
  clear hL₁
  induction ms generalizing L with
  | nil =>
    cases hrun
    rfl
  | cons m ms ih =>
    cases m with
    | take a => exact ih hrun
    | give a =>
      rw [settle] at hrun ⊢
      by_cases ha : a ∈ L
      · rw [if_pos ha] at hrun
        rw [if_pos (List.mem_append_left M ha), List.erase_append_left M ha]
        exact ih hrun
      · rw [if_neg ha] at hrun
        cases hrun

/-- Two bookings of the same moves leave the same resources. -/
theorem unique (h : Settles L ms M) (h' : Settles L ms N) : M.Perm N := by
  obtain ⟨L₁, hrun, hM⟩ := h
  obtain ⟨L₂, hrun', hN⟩ := h'
  cases hrun.symm.trans hrun'
  exact hM.symm.trans hN

end Settles

end Hashish.Lib
