import Mathlib.Data.List.Basic

/-!
# The locks a thread holds

A thread acquires and releases locks that are not recursive. Acquiring a lock it holds and
releasing one it does not hold break the discipline: from then on there is no set of held locks.
The count of the users of a lock goes on nevertheless.
-/

namespace Hashish.Lib

/-- A lock is acquired or released. -/
inductive LockMove (α : Type)
  | acquire (l : α)
  | release (l : α)
deriving DecidableEq, Repr

variable {α : Type} [DecidableEq α]

/-- The held locks after one move. -/
def LockMove.hold (held : List α) : LockMove α → Option (List α)
  | .acquire l => if l ∈ held then none else some (l :: held)
  | .release l => if l ∈ held then some (held.erase l) else none

/-- The locks that are held after the moves, unless they break the discipline. -/
def holding (held : List α) (ms : List (LockMove α)) : Option (List α) :=
  ms.foldlM LockMove.hold held

variable {held : List α} {ms ns : List (LockMove α)} {l : α}

theorem holding_append :
    holding held (ms ++ ns) = (holding held ms).bind fun held' => holding held' ns :=
  List.foldlM_append

@[simp] theorem holding_nil : holding held [] = some held := rfl

@[simp] theorem holding_singleton {m : LockMove α} : holding held [m] = m.hold held := by
  rw [holding, List.foldlM_cons, LockMove.hold.eq_def]
  cases m <;> dsimp only <;> split <;> rfl

theorem hold_acquire (h : l ∉ held) : (LockMove.acquire l).hold held = some (l :: held) :=
  if_neg h

/-- The lock that was acquired last. -/
theorem hold_release : (LockMove.release l).hold (l :: held) = some held := by
  rw [LockMove.hold, if_pos List.mem_cons_self, List.erase_cons_head]

/-- How often the lock was acquired, less how often it was released. -/
def users (l : α) (ms : List (LockMove α)) : Int :=
  (ms.count (.acquire l) : Int) - ms.count (.release l)

@[simp] theorem users_nil : users l [] = 0 := rfl

theorem users_append : users l (ms ++ ns) = users l ms + users l ns := by
  simp only [users, List.count_append, Int.natCast_add]
  omega

/-- A lock that was acquired and released has the users it had. -/
theorem users_pair {k : α} : users l [.acquire k, .release k] = 0 := by
  by_cases h : k = l <;> simp [users, h]

theorem users_of_hold {held' : List α} {m : LockMove α} (h : m.hold held = some held') :
    users l [m] + held.count l = held'.count l := by
  cases m with
  | acquire k =>
    rw [LockMove.hold] at h
    split at h
    · cases h
    · cases h
      by_cases hk : k = l <;> simp [users, hk]
      omega
  | release k =>
    rw [LockMove.hold] at h
    split at h
    · rename_i hk
      cases h
      have hpos := List.count_pos_iff.mpr hk
      by_cases hl : l = k
      · subst hl
        rw [List.count_erase_self]
        simp [users]
        omega
      · rw [List.count_erase_of_ne hl]
        simp [users, Ne.symm hl]
    · cases h

/-- While the discipline is kept, the users of a lock are those who hold it. -/
theorem users_of_holding {held' : List α} (h : holding held ms = some held') :
    users l ms + held.count l = held'.count l := by
  induction ms generalizing held with
  | nil =>
    cases h
    simp
  | cons m ms ih =>
    have happend : (holding held [m]).bind (fun held₁ => holding held₁ ms) = some held' :=
      holding_append.symm.trans h
    obtain ⟨held₁, h₁, h₂⟩ := Option.bind_eq_some_iff.mp happend
    rw [holding_singleton] at h₁
    have hm := users_of_hold (l := l) h₁
    have hms := ih h₂
    rw [show m :: ms = [m] ++ ms from rfl, users_append]
    omega

end Hashish.Lib
