import Hashish.Lib.Exec
import Hashish.Lib.Ledger
import Hashish.Lib.LockSet
import Mathlib.Algebra.Group.Nat.Defs

/-!
# Allocator, locks and memory

What the library uses of the C world: `malloc` and its relatives, `free`, the
POSIX locks, and reads and writes through pointers.

The allocator answers the `n`-th request as `World.replies n` says: with a
failure, or with a fresh block whose contents are arbitrary words. The address
of a block is the number of the request that created it, so addresses never
repeat. Every allocation, release and lock operation leaves an event in the
trace. No lock function blocks. A lock that is in use cannot be destroyed.

Undefined behaviour ends a run with a `Fault`.
-/

namespace Hashish

open Hashish.Lib

/-- The address of an allocated block. A C pointer is an `Option Ptr`, `none` being `NULL`. -/
abbrev Ptr := Nat

abbrev Bytes := List UInt8

/-- The undefined behaviours a run can reach. -/
inductive Fault
  | nullDeref
  | badAddress
  | divByZero
  | uninitialised
  | nontermination
deriving DecidableEq, Repr

/-- A positive error number. -/
def Errno := { n : Int // 0 < n }

/-- The answer to one allocator request. `junk i` is the `i`-th of the words of the fresh block that
may be read before they are written: the cells of an array, `key_hash` of an object, `nmemb` of an
iterator. -/
inductive Reply
  | fail (errno : Errno)
  | block (junk : Nat → UInt32)

inductive Event
  | alloc (p : Ptr)
  | release (p : Ptr)
  | lock (m : Option Ptr)
  | unlock (m : Option Ptr)
  | rdlock (m : Option Ptr)
  | wrlock (m : Option Ptr)
  | rwUnlock (m : Option Ptr)
  | danglingWrite (p : Ptr)
deriving DecidableEq, Repr

/-- The state of the C world: all future allocator answers, the number of
requests so far, and the events so far. -/
structure World where
  replies : Nat → Reply
  requests : Nat
  trace : List Event

/-- The later world `w'` answers requests as `w` does, and forgets neither requests nor events. -/
structure World.Extends (w w' : World) : Prop where
  replies : w.replies = w'.replies
  requests : w.requests ≤ w'.requests
  trace : w.trace <+: w'.trace

instance : Preorder World where
  le := World.Extends
  le_refl _ := ⟨rfl, Nat.le_refl _, List.prefix_rfl⟩
  le_trans _ _ _ h h' := ⟨h.replies.trans h'.replies, Nat.le_trans h.requests h'.requests,
    h.trace.trans h'.trace⟩

/-- No allocation request fails, now or later. -/
def World.AllocsSucceed (w : World) : Prop := ∀ n, ∃ junk, w.replies n = .block junk

theorem World.AllocsSucceed.mono {w w' : World} (h : w.AllocsSucceed) (hw : w ≤ w') :
    w'.AllocsSucceed :=
  fun n => World.Extends.replies hw ▸ h n

/-- The start of a run without failures, in which `junk n` are the words of block `n`. -/
def World.start (junk : Nat → Nat → UInt32) : World := ⟨fun n => .block (junk n), 0, []⟩

theorem World.start_allocsSucceed (junk : Nat → Nat → UInt32) : (World.start junk).AllocsSucceed :=
  fun n => ⟨junk n, rfl⟩

abbrev Prog := Lib.Prog World Fault

/-! ## Events -/

/-- The world after one more event. -/
def World.log (w : World) (e : Event) : World := { w with trace := w.trace ++ [e] }

/-- The world after one more request. -/
def World.tick (w : World) : World := { w with requests := w.requests + 1 }

@[simp] theorem World.log_requests (w : World) (e : Event) :
    (w.log e).requests = w.requests := rfl
@[simp] theorem World.log_replies (w : World) (e : Event) : (w.log e).replies = w.replies := rfl
@[simp] theorem World.tick_requests (w : World) : w.tick.requests = w.requests + 1 := rfl
@[simp] theorem World.tick_replies (w : World) : w.tick.replies = w.replies := rfl

theorem World.le_log (w : World) (e : Event) : w ≤ w.log e :=
  World.Extends.mk rfl (Nat.le_refl _) (List.prefix_append _ _)

theorem World.le_tick (w : World) : w ≤ w.tick :=
  World.Extends.mk rfl (Nat.le_succ _) List.prefix_rfl

@[simp] theorem World.log_allocsSucceed (w : World) (e : Event) :
    (w.log e).AllocsSucceed ↔ w.AllocsSucceed := Iff.rfl
@[simp] theorem World.tick_allocsSucceed (w : World) :
    w.tick.AllocsSucceed ↔ w.AllocsSucceed := Iff.rfl

/-- What an event does to the ledger of the blocks in use. -/
@[simp] def Event.move? : Event → Option (Move Ptr)
  | .alloc p => some (.take p)
  | .release p => some (.give p)
  | .lock _ | .unlock _ | .rdlock _ | .wrlock _ | .rwUnlock _ | .danglingWrite _ => none

/-- The blocks taken and given back so far. -/
def World.moves (w : World) : List (Move Ptr) := w.trace.filterMap Event.move?

@[simp] theorem World.log_moves (w : World) (e : Event) :
    (w.log e).moves = w.moves ++ e.move?.toList := by
  rw [moves, log, List.filterMap_append]
  cases e <;> rfl
@[simp] theorem World.tick_moves (w : World) : w.tick.moves = w.moves := rfl

/-- The mutex of a handle, or the lock of a tree. -/
inductive LockName
  | mutex (m : Option Ptr)
  | rwlock (m : Option Ptr)
deriving DecidableEq, Repr

/-- Where the lock lies. -/
def LockName.addr : LockName → Option Ptr
  | mutex m | rwlock m => m

/-- What an event does to the locks. -/
@[simp] def Event.lockMove? : Event → Option (LockMove LockName)
  | .lock m => some (.acquire (.mutex m))
  | .unlock m => some (.release (.mutex m))
  | .rdlock m | .wrlock m => some (.acquire (.rwlock m))
  | .rwUnlock m => some (.release (.rwlock m))
  | .alloc _ | .release _ | .danglingWrite _ => none

/-- The locks taken and released so far. -/
def World.lockMoves (w : World) : List (LockMove LockName) := w.trace.filterMap Event.lockMove?

@[simp] theorem World.log_lockMoves (w : World) (e : Event) :
    (w.log e).lockMoves = w.lockMoves ++ e.lockMove?.toList := by
  rw [lockMoves, log, List.filterMap_append]
  cases e <;> rfl
@[simp] theorem World.tick_lockMoves (w : World) : w.tick.lockMoves = w.lockMoves := rfl

/-- What was taken and given back between `w` and `w'` turns the ledger `L` into `L'`. -/
def World.Books (w w' : World) (L L' : List Ptr) : Prop :=
  ∃ ms, w'.moves = w.moves ++ ms ∧ Settles L ms L'

/-- Between `w` and `w'` an allocation failed. -/
def World.SomeFailed (w w' : World) : Prop :=
  ∃ i, w.requests ≤ i ∧ i < w'.requests ∧ ∃ e, w.replies i = .fail e

/-- From `w` to `w'` there were `n` requests, all answered with a block. -/
structure World.Served (n : Nat) (w w' : World) : Prop where
  requests : w'.requests = w.requests + n
  blocks : ∀ i < n, ∃ junk, w.replies (w.requests + i) = .block junk

/-- From `w` to `w'` there were `n` requests answered with a block, and one that failed. -/
structure World.Refused (n : Nat) (w w' : World) : Prop where
  requests : w'.requests = w.requests + n + 1
  blocks : ∀ i < n, ∃ junk, w.replies (w.requests + i) = .block junk
  fails : ∃ e, w.replies (w.requests + n) = .fail e

namespace World

variable {w w₁ w₂ w₃ : World} {m n : Nat}

theorem Served.zero (h : w₁.requests = w.requests) : Served 0 w w₁ := ⟨h, nofun⟩

theorem Served.one {junk : Nat → UInt32} (h : w₁.requests = w.requests + 1)
    (hb : w.replies w.requests = .block junk) : Served 1 w w₁ := by
  refine ⟨h, fun i hi => ⟨junk, ?_⟩⟩
  obtain rfl : i = 0 := by omega
  exact hb

theorem Served.trans (h : Served m w w₁) (hw : w ≤ w₁) (h' : Served n w₁ w₂) :
    Served (m + n) w w₂ := by
  refine ⟨by rw [h'.requests, h.requests, Nat.add_assoc], fun i hi => ?_⟩
  by_cases him : i < m
  · exact h.blocks i him
  · have hblock := h'.blocks (i - m) (by omega)
    rwa [Extends.replies hw, show w.requests + i = w₁.requests + (i - m) by rw [h.requests]; omega]

theorem Served.refused (h : Served m w w₁) (hw : w ≤ w₁) (h' : Refused n w₁ w₂) :
    Refused (m + n) w w₂ := by
  have hserved : Served (m + n) w { w₂ with requests := w₁.requests + n } :=
    h.trans hw ⟨rfl, h'.blocks⟩
  refine ⟨by rw [h'.requests, h.requests, Nat.add_assoc w.requests], hserved.blocks, ?_⟩
  rw [Extends.replies hw, ← Nat.add_assoc, ← h.requests]
  exact h'.fails

theorem Served.after (h : Served m w w₁) (h' : w₂.requests = w₁.requests) : Served m w w₂ :=
  ⟨h'.trans h.requests, h.blocks⟩

theorem Refused.after (h : Refused m w w₁) (h' : w₂.requests = w₁.requests) : Refused m w w₂ :=
  ⟨h'.trans h.requests, h.blocks, h.fails⟩

theorem Served.of_log {e : Event} (h : Served m (w.log e) w₁) : Served m w w₁ :=
  ⟨h.requests, h.blocks⟩

theorem Refused.of_log {e : Event} (h : Refused m (w.log e) w₁) : Refused m w w₁ :=
  ⟨h.requests, h.blocks, h.fails⟩

/-- The next `n` replies of the allocator are blocks. -/
def Serves (w : World) (n : Nat) : Prop := ∀ i < n, ∃ junk, w.replies (w.requests + i) = .block junk

theorem Served.serves (h : Served n w w₁) : w.Serves n := h.blocks

theorem Refused.not_serves (h : Refused m w w₁) (hmn : m < n) : ¬ w.Serves n := by
  intro hn
  obtain ⟨e, he⟩ := h.fails
  obtain ⟨junk, hj⟩ := hn m hmn
  rw [he] at hj
  cases hj

/-- Once the next `m` replies were blocks. -/
theorem Served.serves_add (h : Served m w w₁) (hw : w ≤ w₁) : w.Serves (m + n) ↔ w₁.Serves n := by
  constructor
  · intro hall i hi
    have hblock := hall (m + i) (Nat.add_lt_add_left hi m)
    rwa [Extends.replies hw, ← Nat.add_assoc, ← h.requests] at hblock
  · intro hall i hi
    by_cases him : i < m
    · exact h.blocks i him
    · obtain ⟨j, rfl⟩ := Nat.exists_eq_add_of_le (Nat.not_lt.mp him)
      rw [Extends.replies hw, ← Nat.add_assoc, ← h.requests]
      exact hall j (Nat.lt_of_add_lt_add_left hi)

theorem Serves.of_requests (hw : w ≤ w₁) (hn : w₁.requests = w.requests) :
    w₁.Serves n ↔ w.Serves n := by
  rw [Serves, Serves, hn, ← Extends.replies hw]

theorem Refused.not_allocsSucceed (h : Refused m w w₁) : ¬ w.AllocsSucceed := by
  exact fun hs => h.not_serves (Nat.lt_succ_self m) fun i _ => hs (w.requests + i)

theorem Served.not_someFailed (hs : w.Served n w₁) : ¬ w.SomeFailed w₁ := by
  rintro ⟨i, hle, hlt, e, he⟩
  rw [hs.requests] at hlt
  obtain ⟨junk, hj⟩ := hs.blocks (i - w.requests) (by omega)
  rw [Nat.add_sub_cancel' hle, he] at hj
  cases hj

theorem Refused.someFailed (hs : w.Refused n w₁) : w.SomeFailed w₁ :=
  ⟨w.requests + n, Nat.le_add_right _ _, by rw [hs.requests]; exact Nat.lt_succ_self _, hs.fails⟩

theorem SomeFailed.not_allocsSucceed (hs : w.SomeFailed w₁) : ¬ w.AllocsSucceed := by
  obtain ⟨i, -, -, e, he⟩ := hs
  intro hall
  obtain ⟨junk, hj⟩ := hall i
  rw [he] at hj
  cases hj

/-- A failure in a part of a run is one of the run. -/
theorem SomeFailed.within (hs : w₁.SomeFailed w₂) (hw : w ≤ w₁) (hw' : w₂ ≤ w₃) :
    w.SomeFailed w₃ := by
  obtain ⟨i, hle, hlt, hfail⟩ := hs
  refine ⟨i, Nat.le_trans (Extends.requests hw) hle, Nat.lt_of_lt_of_le hlt (Extends.requests hw'), ?_⟩
  rwa [Extends.replies hw]

end World

namespace World.Books

variable {w w₁ w₂ : World} {L L₁ L₂ : List Ptr}

theorem of_perm (h : w₁.moves = w.moves) (hp : L.Perm L₁) : w.Books w₁ L L₁ :=
  ⟨[], by rw [h, List.append_nil], .of_perm hp⟩

theorem take {p : Ptr} (h : w₁.moves = w.moves ++ [.take p]) : w.Books w₁ L (p :: L) :=
  ⟨_, h, .take⟩

theorem takes {ps : List Ptr} (h : w₁.moves = w.moves ++ ps.map .take) (hp : (ps ++ L).Perm L₁) :
    w.Books w₁ L L₁ := ⟨_, h, .takes hp⟩

theorem gives {ps : List Ptr} (h : w₁.moves = w.moves ++ ps.map .give) (hp : L.Perm (ps ++ L₁)) :
    w.Books w₁ L L₁ := ⟨_, h, .gives hp⟩

theorem trans (h : w.Books w₁ L L₁) (h' : w₁.Books w₂ L₁ L₂) : w.Books w₂ L L₂ := by
  obtain ⟨ms, hms, hs⟩ := h
  obtain ⟨ns, hns, hs'⟩ := h'
  exact ⟨ms ++ ns, by rw [hns, hms, List.append_assoc], hs.trans hs'⟩

theorem perm (h : w.Books w₁ L L₁) (hp : L₁.Perm L₂) : w.Books w₁ L L₂ := by
  obtain ⟨ms, hms, hs⟩ := h
  exact ⟨ms, hms, hs.perm hp⟩

/-- Among other blocks `M`. -/
theorem frame {A B M : List Ptr} (h : w.Books w₁ A B) (hL : L.Perm (A ++ M))
    (hL₁ : (B ++ M).Perm L₁) : w.Books w₁ L L₁ := by
  obtain ⟨ms, hms, hs⟩ := h
  exact ⟨[] ++ ms, hms, (Settles.of_perm hL).trans ((hs.frame M).perm hL₁)⟩

/-- A ledger is determined by what was taken and given back. -/
theorem unique (h : w.Books w₁ L L₁) (h' : w.Books w₁ L L₂) : L₁.Perm L₂ := by
  obtain ⟨ms, hms, hs⟩ := h
  obtain ⟨ns, hns, hs'⟩ := h'
  obtain rfl := List.append_cancel_left (hms.symm.trans hns)
  exact hs.unique hs'

end World.Books

/-- Append one event to the trace. -/
def record (e : Event) : Prog Unit :=
  Prog.step (fun w => ((), w.log e)) fun w => w.le_log e

/-- The lock functions of `threads.h`. -/
def lhiPthreadMutexLock (m : Option Ptr) : Prog Unit := record (.lock m)
def lhiPthreadMutexUnlock (m : Option Ptr) : Prog Unit := record (.unlock m)
def lhiPthreadRwlockRdlock (m : Option Ptr) : Prog Unit := record (.rdlock m)
def lhiPthreadRwlockWrlock (m : Option Ptr) : Prog Unit := record (.wrlock m)
def lhiPthreadRwlockUnlock (m : Option Ptr) : Prog Unit := record (.rwUnlock m)

/-! ## Allocation -/

/-- A fresh block: its address and the words found in it. -/
structure Fresh where
  addr : Ptr
  junk : Nat → UInt32

/-- One request to the C library: its number and the answer. -/
def answer : Prog (Ptr × Reply) :=
  Prog.step (fun w => ((w.requests, w.replies w.requests), w.tick)) fun w => w.le_tick

/-- One request for a block. -/
def request : Prog (Except Errno Fresh) := do
  match ← answer with
  | (_, .fail e) => pure (.error e)
  | (p, .block junk) => do
    record (.alloc p)
    pure (.ok ⟨p, junk⟩)

/-- `xalloc_align`, and `XMALLOC` with it: `posix_memalign` reports a positive error number. -/
def xallocAlign : Prog (Except Int Fresh) := do
  match ← request with
  | .error e => pure (.error e.val)
  | .ok fresh => pure (.ok fresh)

/-- `malloc` and `calloc`: `none` stands for the `NULL` of a failure. -/
def malloc : Prog (Option Fresh) := do
  match ← request with
  | .error _ => pure none
  | .ok fresh => pure (some fresh)

/-- `free`: nothing happens for `NULL`. -/
def free (p : Option Ptr) : Prog Unit :=
  match p with
  | none => pure ()
  | some p => record (.release p)

/-- `realloc`: on success the old block is released and its contents live on in the new one. A request
of size 0 also gives a block. -/
def realloc (old : Option Ptr) : Prog (Option Fresh) := do
  match ← malloc with
  | none => pure none
  | some fresh => do
    free old
    pure (some fresh)

/-- `lhi_pthread_mutex_init` and `lhi_pthread_rwlock_init`: a block for the lock, then the
POSIX initialisation of the lock, whose error number is passed on. -/
def lhiPthreadLockInit : Prog (Except Int Ptr) := do
  match ← malloc with
  | none => pure (.error (-1))
  | some p => do
    match ← answer with
    | (_, .fail e) => do
      free (some p.addr)
      pure (.error e.val)
    | (_, .block _) => pure (.ok p.addr)

/-- `EBUSY`. -/
def eBusy : Int := 16

/-- `pthread_mutex_destroy` and `pthread_rwlock_destroy`: a lock that is in use is left as it is. The
C library counts one user more for each time it is locked, and one less for each time it is
unlocked. -/
def pthreadDestroy (l : LockName) : Prog Int :=
  Prog.step (fun w => (if users l w.lockMoves = 0 then 0 else eBusy, w)) fun _ => le_rfl

/-- The memory of a lock is released when the lock could be destroyed. -/
def lhiPthreadLockDestroy (l : LockName) : Prog Int := do
  let r ← pthreadDestroy l
  if r = 0 then do
    free l.addr
    pure r
  else pure r

/-- `lhi_pthread_mutex_destroy`. -/
def lhiPthreadMutexDestroy (m : Option Ptr) : Prog Int := lhiPthreadLockDestroy (.mutex m)

/-- `lhi_pthread_rwlock_destroy`. -/
def lhiPthreadRwlockDestroy (m : Option Ptr) : Prog Int := lhiPthreadLockDestroy (.rwlock m)

section Rules

variable {E : Fault → Prop} {w : World}

@[simp] theorem runs_record {e : Event} {Q : Unit → World → Prop} :
    Runs E (record e) w Q ↔ Q () (w.log e) := Iff.rfl

@[simp] theorem runs_mutexLock {m : Option Ptr} {Q : Unit → World → Prop} :
    Runs E (lhiPthreadMutexLock m) w Q ↔ Q () (w.log (.lock m)) := Iff.rfl

@[simp] theorem runs_mutexUnlock {m : Option Ptr} {Q : Unit → World → Prop} :
    Runs E (lhiPthreadMutexUnlock m) w Q ↔ Q () (w.log (.unlock m)) := Iff.rfl

@[simp] theorem runs_rdlock {m : Option Ptr} {Q : Unit → World → Prop} :
    Runs E (lhiPthreadRwlockRdlock m) w Q ↔ Q () (w.log (.rdlock m)) := Iff.rfl

@[simp] theorem runs_wrlock {m : Option Ptr} {Q : Unit → World → Prop} :
    Runs E (lhiPthreadRwlockWrlock m) w Q ↔ Q () (w.log (.wrlock m)) := Iff.rfl

@[simp] theorem runs_rwUnlock {m : Option Ptr} {Q : Unit → World → Prop} :
    Runs E (lhiPthreadRwlockUnlock m) w Q ↔ Q () (w.log (.rwUnlock m)) := Iff.rfl

/-- `free` changes nothing but the trace, and gives the block back. -/
theorem runs_free_log {p : Option Ptr} {Q : Unit → World → Prop}
    (h : ∀ w', w ≤ w' → w'.requests = w.requests → w'.moves = w.moves ++ p.toList.map .give →
      w'.lockMoves = w.lockMoves → Q () w') : Runs E (free p) w Q := by
  cases p with
  | none => exact h w le_rfl rfl (List.append_nil _).symm rfl
  | some p => exact h _ (w.le_log _) rfl (w.log_moves _) (by simp)

theorem runs_free_moves {p : Option Ptr} {Q : Unit → World → Prop}
    (h : ∀ w', w ≤ w' → w'.requests = w.requests → w'.moves = w.moves ++ p.toList.map .give →
      Q () w') : Runs E (free p) w Q :=
  runs_free_log fun w' hw hreq hmoves _ => h w' hw hreq hmoves

theorem runs_free {p : Option Ptr} {Q : Unit → World → Prop}
    (h : ∀ w', w ≤ w' → w'.requests = w.requests → Q () w') : Runs E (free p) w Q :=
  runs_free_moves fun w' hw hreq _ => h w' hw hreq

/-- A request either fails or gives the block whose address is the number of the request. -/
theorem runs_request {Q : Except Errno Fresh → World → Prop}
    (hfail : ∀ e w', w ≤ w' → w.Refused 0 w' → Q (.error e) w')
    (hok : ∀ junk w', w ≤ w' → w'.requests = w.requests + 1 →
      w.replies w.requests = .block junk → w'.moves = w.moves ++ [.take w.requests] →
      Q (.ok ⟨w.requests, junk⟩) w') :
    Runs E request w Q := by
  have hstep : Runs E request w Q ↔
      Runs E (match w.replies w.requests with
        | .fail e => pure (.error e)
        | .block junk => do
          record (.alloc w.requests)
          pure (.ok ⟨w.requests, junk⟩)) w.tick Q := by
    unfold request
    rw [runs_bind, answer, runs_step]
    cases w.replies w.requests <;> exact Iff.rfl
  rw [hstep]
  cases hr : w.replies w.requests with
  | fail e => exact hfail e _ w.le_tick ⟨rfl, nofun, e, hr⟩
  | block junk => exact hok junk _ (w.le_tick.trans (World.le_log _ _)) rfl hr (World.log_moves _ _)

theorem runs_xallocAlign_refused {Q : Except Int Fresh → World → Prop}
    (hfail : ∀ ret w', w ≤ w' → w.Refused 0 w' → 0 < ret → Q (.error ret) w')
    (hok : ∀ junk w', w ≤ w' → w'.requests = w.requests + 1 →
      w.replies w.requests = .block junk → w'.moves = w.moves ++ [.take w.requests] →
      Q (.ok ⟨w.requests, junk⟩) w') :
    Runs E xallocAlign w Q :=
  runs_bind.mpr (runs_request (fun e w' hw hr => hfail e.val w' hw hr e.property) hok)

theorem runs_malloc_refused {Q : Option Fresh → World → Prop}
    (hfail : ∀ w', w ≤ w' → w.Refused 0 w' → Q none w')
    (hok : ∀ junk w', w ≤ w' → w'.requests = w.requests + 1 →
      w.replies w.requests = .block junk → w'.moves = w.moves ++ [.take w.requests] →
      Q (some ⟨w.requests, junk⟩) w') :
    Runs E malloc w Q :=
  runs_bind.mpr (runs_request (fun _ w' hw hr => hfail w' hw hr) hok)

theorem runs_xallocAlign {Q : Except Int Fresh → World → Prop}
    (hfail : ∀ ret w', w ≤ w' → w'.requests = w.requests + 1 → ¬ w.AllocsSucceed → 0 < ret →
      Q (.error ret) w')
    (hok : ∀ junk w', w ≤ w' → w'.requests = w.requests + 1 →
      w.replies w.requests = .block junk → Q (.ok ⟨w.requests, junk⟩) w') :
    Runs E xallocAlign w Q :=
  runs_xallocAlign_refused
    (fun ret w' hw hr hret => hfail ret w' hw hr.requests hr.not_allocsSucceed hret)
    fun junk w' hw hreq hblock _ => hok junk w' hw hreq hblock

theorem runs_malloc {Q : Option Fresh → World → Prop}
    (hfail : ∀ w', w ≤ w' → w'.requests = w.requests + 1 → ¬ w.AllocsSucceed → Q none w')
    (hok : ∀ junk w', w ≤ w' → w'.requests = w.requests + 1 →
      w.replies w.requests = .block junk → Q (some ⟨w.requests, junk⟩) w') :
    Runs E malloc w Q :=
  runs_malloc_refused (fun w' hw hr => hfail w' hw hr.requests hr.not_allocsSucceed)
    fun junk w' hw hreq hblock _ => hok junk w' hw hreq hblock

theorem runs_lhiPthreadLockInit_refused {Q : Except Int Ptr → World → Prop}
    (hfail : ∀ ret m w', m < 2 → w ≤ w' → w.Refused m w' → Q (.error ret) w')
    (hok : ∀ p w', w ≤ w' → w.Served 2 w' → w'.moves = w.moves ++ [.take p] → Q (.ok p) w') :
    Runs E lhiPthreadLockInit w Q := by
  refine runs_bind.mpr (runs_malloc_refused
    (fun w₁ hw₁ hr => hfail _ 0 w₁ Nat.zero_lt_two hw₁ hr) ?_)
  intro junk w₁ hw₁ hreq hblock hmoves
  have hserved := World.Served.one hreq hblock
  have hstep : Runs E answer w₁ fun r w₂ => w₁ ≤ w₂ ∧ r.2 = w₁.replies w₁.requests ∧
      w₂.requests = w₁.requests + 1 ∧ w₂.moves = w₁.moves := ⟨w₁.le_tick, rfl, rfl, rfl⟩
  refine Runs.bind hstep fun r w₂ _ h₂ => ?_
  obtain ⟨p, reply⟩ := r
  obtain ⟨hw₂, (rfl : reply = _), hreq₂, hmoves₂⟩ := h₂
  cases hr : w₁.replies w₁.requests with
  | fail e =>
    have hrefused : w₁.Refused 0 w₂ := ⟨hreq₂, nofun, e, hr⟩
    refine runs_bind.mpr (runs_free fun w₃ hw₃ hreq₃ => ?_)
    exact hfail e.val 1 w₃ Nat.one_lt_two (hw₁.trans (hw₂.trans hw₃))
      ((hserved.refused hw₁ hrefused).after hreq₃)
  | block _ =>
    exact hok _ w₂ (hw₁.trans hw₂) (hserved.trans hw₁ (.one hreq₂ hr)) (hmoves₂.trans hmoves)

theorem runs_lhiPthreadLockInit {Q : Except Int Ptr → World → Prop}
    (hfail : ∀ ret w', w ≤ w' → ¬ w.AllocsSucceed → Q (.error ret) w')
    (hok : ∀ p w', w ≤ w' → w'.moves = w.moves ++ [.take p] → Q (.ok p) w') :
    Runs E lhiPthreadLockInit w Q :=
  runs_lhiPthreadLockInit_refused
    (fun ret _ w' _ hw hr => hfail ret w' hw hr.not_allocsSucceed)
    fun p w' hw _ hmoves => hok p w' hw hmoves

/-- A lock that nobody uses is destroyed, and its block is given back. -/
theorem runs_lockDestroy {l : LockName} {Q : Int → World → Prop}
    (h : ∀ r w', w ≤ w' → w'.requests = w.requests → w'.lockMoves = w.lockMoves →
      (users l w.lockMoves = 0 → w'.moves = w.moves ++ l.addr.toList.map .give) → Q r w') :
    Runs E (lhiPthreadLockDestroy l) w Q := by
  unfold lhiPthreadLockDestroy pthreadDestroy
  rw [runs_bind, runs_step]
  refine runs_ite.mpr ⟨fun _ => ?_, fun hr => ?_⟩
  · refine runs_bind.mpr (runs_free_log fun w' hw hreq hmoves hlocks => ?_)
    exact h _ w' hw hreq hlocks fun _ => hmoves
  · exact h _ w le_rfl rfl rfl fun hu => (hr (if_pos hu)).elim

end Rules

/-- A bound on the length of a walk that meets no block twice. -/
def walkBound : Prog Nat := Prog.step (fun w => (w.requests + 1, w)) fun _ => le_rfl

@[simp] theorem runs_walkBound {E : Fault → Prop} {w : World} {Q : Nat → World → Prop} :
    Runs E walkBound w Q ↔ Q (w.requests + 1) w := Iff.rfl

/-! ## Reads and writes -/

/-- The blocks of one kind that hold an `α`. -/
abbrev Heap (α : Type) := Ptr → Option α

def Heap.set {α : Type} (heap : Heap α) (p : Ptr) (v : Option α) : Heap α :=
  fun q => if q = p then v else heap q

@[simp] theorem Heap.set_same {α : Type} (heap : Heap α) (p : Ptr) (v : Option α) :
    heap.set p v p = v := if_pos rfl

theorem Heap.set_other {α : Type} (heap : Heap α) {p q : Ptr} (v : Option α) (h : q ≠ p) :
    heap.set p v q = heap q := if_neg h

/-- Read the object a pointer designates. -/
def deref {α : Type} (heap : Heap α) (p : Option Ptr) : Prog α :=
  match p with
  | none => Prog.fault .nullDeref
  | some p =>
    match heap p with
    | none => Prog.fault .badAddress
    | some a => pure a

/-- Change the object a pointer designates. -/
def assign {α : Type} (heap : Heap α) (p : Option Ptr) (f : α → α) : Prog (Heap α) :=
  match p with
  | none => Prog.fault .nullDeref
  | some p =>
    match heap p with
    | none => Prog.fault .badAddress
    | some a => pure (heap.set p (some (f a)))

/-- An array with the block it lies in. `addr` is `none` for a `NULL` pointer. -/
structure Block (α : Type) where
  addr : Option Ptr
  cells : List α
deriving DecidableEq, Repr

def Block.null {α : Type} : Block α := ⟨none, []⟩

section Rules

variable {E : Fault → Prop} {w : World} {α : Type} {Q : α → World → Prop}

theorem runs_deref {heap : Heap α} {p : Ptr} {a : α} (h : heap p = some a) (hQ : Q a w) :
    Runs E (deref heap (some p)) w Q := by
  simp only [deref, h]
  exact hQ

theorem runs_assign {heap : Heap α} {p : Ptr} {a : α} {f : α → α} {R : Heap α → World → Prop}
    (h : heap p = some a) (hR : R (heap.set p (some (f a))) w) :
    Runs E (assign heap (some p) f) w R := by
  simp only [assign, h]
  exact hR

end Rules

/-- Read cell `i`. -/
def Block.load {α : Type} (b : Block α) (i : Nat) : Prog α :=
  match b.addr, b.cells[i]? with
  | none, _ => Prog.fault .nullDeref
  | some _, none => Prog.fault .badAddress
  | some _, some a => pure a

/-- Write cell `i`. -/
def Block.store {α : Type} (b : Block α) (i : Nat) (v : α) : Prog (Block α) :=
  match b.addr with
  | none => Prog.fault .nullDeref
  | some _ =>
    if i < b.cells.length then pure { b with cells := b.cells.set i v }
    else Prog.fault .badAddress

theorem Block.runs_load {E : Fault → Prop} {w : World} {α : Type} {Q : α → World → Prop}
    {b : Block α} {i : Nat} {a : α} (hb : b.addr ≠ none) (h : b.cells[i]? = some a) (hQ : Q a w) :
    Runs E (b.load i) w Q := by
  obtain ⟨p, hp⟩ := Option.ne_none_iff_exists'.mp hb
  simp only [Block.load, hp, h]
  exact hQ

theorem Block.runs_store {E : Fault → Prop} {w : World} {α : Type} {Q : Block α → World → Prop}
    {b : Block α} {i : Nat} {v : α} (hb : b.addr ≠ none) (h : i < b.cells.length)
    (hQ : Q { b with cells := b.cells.set i v } w) : Runs E (b.store i v) w Q := by
  obtain ⟨p, hp⟩ := Option.ne_none_iff_exists'.mp hb
  simp only [Block.store, hp, if_pos h]
  exact hp ▸ hQ

/-- `memcpy` of `n` bytes into a fresh block. -/
def memcpy (p : Ptr) (src : Bytes) (n : Nat) : Prog (Block UInt8) :=
  if n ≤ src.length then pure ⟨some p, src.take n⟩ else Prog.fault .badAddress

theorem runs_memcpy {E : Fault → Prop} {w : World} {Q : Block UInt8 → World → Prop} {p : Ptr}
    {src : Bytes} {n : Nat} (hn : n = src.length) (hQ : Q ⟨some p, src⟩ w) :
    Runs E (memcpy p src n) w Q := by
  subst hn
  simpa [memcpy] using hQ

/-- The words of a fresh block of `n` objects, none of which has been written. -/
def Fresh.unwritten {α : Type} (fresh : Fresh) (n : Nat) : Block (Option α) :=
  ⟨some fresh.addr, List.replicate n none⟩

/-- Read a cell that must have been written. -/
def Block.loadWritten {α : Type} (b : Block (Option α)) (i : Nat) : Prog α := do
  match ← b.load i with
  | none => Prog.fault .uninitialised
  | some a => pure a

/-- The value of an expression of type `size_t`. -/
def sizeT (n : Nat) : Nat := n % 2 ^ 64

/-- `a / b` on `size_t`. -/
def sizeDiv (a b : Nat) : Prog Nat :=
  if b = 0 then Prog.fault .divByZero else pure (a / b)

/-- `a % b` on `uint32_t`. -/
def umod (a b : UInt32) : Prog UInt32 :=
  if b = 0 then Prog.fault .divByZero else pure (a % b)

/-- `a / b` on `uint32_t`. -/
def udiv (a b : UInt32) : Prog UInt32 :=
  if b = 0 then Prog.fault .divByZero else pure (a / b)

end Hashish
