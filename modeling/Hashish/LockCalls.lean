import Hashish.Lib.LockSet
import Hashish.Sessions

/-!
# Locks

`Locks m A B Q` says that the program `m`, started by a thread that holds the locks `A`, keeps to
the discipline of the locks, ends with the locks `B`, and returns what satisfies `Q`. The
functions of the engines have this property whatever is in memory. Those that do not, or that
do only under a condition, come last in each section.
-/

namespace Hashish

open Hashish.Lib

variable {α β δ : Type}

/-! ## The locks of a thread -/

/-- The locks that are held, unless the discipline was broken. -/
def World.held (w : World) : Option (List LockName) := holding [] w.lockMoves

theorem World.log_held {w : World} {A : List LockName} (hw : w.held = some A) (e : Event) :
    (w.log e).held = holding A e.lockMove?.toList := by
  rw [held] at hw
  rw [held, log_lockMoves, holding_append, hw, Option.bind_some]

/-- Nobody uses a lock while none is held. -/
theorem World.users_of_held {w : World} (hw : w.held = some []) (l : LockName) :
    users l w.lockMoves = 0 := by
  simpa using users_of_holding (l := l) hw

def Locks (m : Prog α) (A B : List LockName) (Q : α → Prop) : Prop :=
  ∀ w, w.held = some A → Partial m w fun a w' => w'.held = some B ∧ Q a

namespace Locks

variable {m : Prog α} {A B C : List LockName} {P Q : α → Prop}

theorem pure {a : α} (h : Q a) : Locks (Pure.pure a) A A Q := fun _ hw => ⟨hw, h⟩

theorem fault {e : Fault} : Locks (Prog.fault e) A B Q := fun _ _ => trivial

theorem bind {f : α → Prog β} {R : β → Prop} (hm : Locks m A B P)
    (hf : ∀ a, P a → Locks (f a) B C R) : Locks (m >>= f) A C R :=
  fun w hw => Runs.bind (hm w hw) fun a w' _ h => hf a h.2 w' h.1

theorem imp (h : Locks m A B P) (hPQ : ∀ a, P a → Q a) : Locks m A B Q :=
  fun w hw => (h w hw).imp fun a _ h => ⟨h.1, hPQ a h.2⟩

/-- The first program returns something. -/
theorem seq {f : α → Prog β} {R : β → Prop} (hm : Locks m A B fun _ => True)
    (hf : ∀ a, Locks (f a) B C R) : Locks (m >>= f) A C R :=
  hm.bind fun a _ => hf a

/-- Where it does not matter what is returned. -/
theorem ends {w : World} (h : Locks m A B Q) (hw : w.held = some A) :
    Partial m w fun _ w' => w'.held = some B :=
  (h w hw).imp fun _ _ h' => h'.1

theorem forUp {body : Nat → α → Prog α} {n i : Nat} {a : α}
    (hbody : ∀ i a, Locks (body i a) A A fun _ => True) :
    Locks (Prog.forUp body n i a) A A fun _ => True := by
  induction n generalizing i a with
  | zero => exact pure trivial
  | succ n ih => exact (hbody i a).seq fun _ => ih

end Locks

/-- The program touches no lock, and returns what satisfies `Q`. -/
def Quiet (m : Prog α) (Q : α → Prop) : Prop :=
  ∀ w, Partial m w fun a w' => w'.lockMoves = w.lockMoves ∧ Q a

namespace Quiet

variable {m : Prog α} {A B : List LockName} {P Q : α → Prop}

theorem locks (h : Quiet m Q) : Locks m A A Q :=
  fun w hw => (h w).imp fun _ _ h' => ⟨(congrArg (holding []) h'.1).trans hw, h'.2⟩

theorem pure {a : α} (h : Q a) : Quiet (Pure.pure a) Q := fun _ => ⟨rfl, h⟩

theorem fault {e : Fault} : Quiet (Prog.fault e) Q := fun _ => trivial

theorem bind {f : α → Prog β} {R : β → Prop} (hm : Quiet m P) (hf : ∀ a, P a → Quiet (f a) R) :
    Quiet (m >>= f) R :=
  fun w => Runs.bind (hm w) fun a w' _ h => (hf a h.2 w').imp fun _ _ h' => ⟨h'.1.trans h.1, h'.2⟩

theorem seq {f : α → Prog β} {R : β → Prop} (hm : Quiet m fun _ => True)
    (hf : ∀ a, Quiet (f a) R) : Quiet (m >>= f) R :=
  hm.bind fun a _ => hf a

theorem imp (h : Quiet m P) (hPQ : ∀ a, P a → Q a) : Quiet m Q :=
  fun w => (h w).imp fun a _ h => ⟨h.1, hPQ a h.2⟩

theorem forUp {body : Nat → α → Prog α} {n i : Nat} {a : α}
    (hbody : ∀ i a, Quiet (body i a) fun _ => True) :
    Quiet (Prog.forUp body n i a) fun _ => True := by
  induction n generalizing i a with
  | zero => exact pure trivial
  | succ n ih => exact (hbody i a).seq fun _ => ih

/-- Before a program that takes or releases locks. -/
theorem locks_bind {f : α → Prog β} {R : β → Prop} (hm : Quiet m P)
    (hf : ∀ a, P a → Locks (f a) A B R) : Locks (m >>= f) A B R :=
  hm.locks.bind hf

theorem locks_seq {f : α → Prog β} {R : β → Prop} (hm : Quiet m fun _ => True)
    (hf : ∀ a, Locks (f a) A B R) : Locks (m >>= f) A B R :=
  hm.locks.seq hf

end Quiet

/-- The program makes the moves `ms` on the locks, and returns what satisfies `Q`. -/
def Moves (m : Prog α) (ms : List (LockMove LockName)) (Q : α → Prop) : Prop :=
  ∀ w, Partial m w fun a w' => w'.lockMoves = w.lockMoves ++ ms ∧ Q a

namespace Moves

variable {m : Prog α} {ms ns : List (LockMove LockName)} {P Q : α → Prop}

theorem event {e : Event} {l : LockMove LockName} (he : e.lockMove? = some l) :
    Moves (record e) [l] fun _ => True := by
  intro w
  refine ⟨?_, trivial⟩
  rw [World.log_lockMoves, he]
  rfl

theorem bind {f : α → Prog β} {R : β → Prop} (hm : Moves m ms P)
    (hf : ∀ a, P a → Moves (f a) ns R) : Moves (m >>= f) (ms ++ ns) R := by
  refine fun w => Runs.bind (hm w) fun a w' _ h => (hf a h.2 w').imp fun _ _ h' => ⟨?_, h'.2⟩
  rw [h'.1, h.1, List.append_assoc]

theorem seq {f : α → Prog β} {R : β → Prop} (hm : Moves m ms fun _ => True)
    (hf : ∀ a, Moves (f a) ns R) : Moves (m >>= f) (ms ++ ns) R :=
  hm.bind fun a _ => hf a

theorem pure {a : α} (h : Q a) : Moves (Pure.pure a) [] Q := fun _ => ⟨(List.append_nil _).symm, h⟩

/-- Moves that keep the discipline. -/
theorem locks {A B : List LockName} (h : Moves m ms Q) (hms : holding A ms = some B) :
    Locks m A B Q := by
  refine fun w hw => (h w).imp fun _ _ h' => ⟨?_, h'.2⟩
  rw [World.held, h'.1, holding_append, show holding [] w.lockMoves = some A from hw]
  exact hms

end Moves

theorem Quiet.moves_bind {m : Prog α} {f : α → Prog β} {ms : List (LockMove LockName)} {P : α → Prop}
    {R : β → Prop} (hm : Quiet m P) (hf : ∀ a, P a → Moves (f a) ms R) : Moves (m >>= f) ms R :=
  fun w => Runs.bind (hm w) fun a w' _ h =>
    (hf a h.2 w').imp fun _ _ h' => ⟨h'.1.trans (h.1 ▸ rfl), h'.2⟩

theorem Quiet.moves_seq {m : Prog α} {f : α → Prog β} {ms : List (LockMove LockName)} {R : β → Prop}
    (hm : Quiet m fun _ => True) (hf : ∀ a, Moves (f a) ms R) : Moves (m >>= f) ms R :=
  hm.moves_bind fun a _ => hf a

/-- A lock of the handle. -/
def HiHandle.IsLock (h : HiHandle δ) (l : LockName) : Prop :=
  l = .mutex h.mutexLock ∨ ∃ t ∈ h.trees.cells, l = .rwlock t.rwlock

/-- The program takes one lock of the handle and releases it, and returns what satisfies `Q`. -/
def Guarded (h : HiHandle δ) (m : Prog α) (Q : α → Prop) : Prop :=
  ∀ w, Partial m w fun a w' =>
    (∃ l, h.IsLock l ∧ w'.lockMoves = w.lockMoves ++ [.acquire l, .release l]) ∧ Q a

theorem holding_pair {l : LockName} : holding [] [.acquire l, .release l] = some [] := by
  rw [show ∀ a b : LockMove LockName, [a, b] = [a] ++ [b] from fun _ _ => rfl, holding_append,
    holding_singleton, hold_acquire List.not_mem_nil, Option.bind_some, holding_singleton,
    hold_release]

namespace Guarded

variable {h : HiHandle δ} {m : Prog α} {l : LockName} {P Q : α → Prop}

theorem of_moves (hl : h.IsLock l) (hm : Moves m [.acquire l, .release l] Q) : Guarded h m Q :=
  fun w => (hm w).imp fun _ _ h' => ⟨⟨l, hl, h'.1⟩, h'.2⟩

theorem locks (hm : Guarded h m Q) : Locks m [] [] Q := by
  refine fun w hw => (hm w).imp fun a w' h' => ⟨?_, h'.2⟩
  obtain ⟨⟨l, -, hmoves⟩, -⟩ := h'
  rw [World.held, hmoves, holding_append, show holding [] w.lockMoves = some [] from hw]
  exact holding_pair

theorem bind {f : α → Prog β} {R : β → Prop} (hm : Guarded h m P)
    (hf : ∀ a, P a → Quiet (f a) R) : Guarded h (m >>= f) R :=
  fun w => Runs.bind (hm w) fun a w' _ ⟨⟨l, hl, hmoves⟩, ha⟩ =>
    (hf a ha w').imp fun _ _ h' => ⟨⟨l, hl, h'.1.trans hmoves⟩, h'.2⟩

end Guarded

theorem Quiet.guarded_bind {h : HiHandle δ} {m : Prog α} {f : α → Prog β} {P : α → Prop}
    {R : β → Prop} (hm : Quiet m P) (hf : ∀ a, P a → Guarded h (f a) R) : Guarded h (m >>= f) R := by
  refine fun w => Runs.bind (hm w) fun a w' _ ha => (hf a ha.2 w').imp fun _ _ h' => ?_
  obtain ⟨⟨l, hl, hmoves⟩, hr⟩ := h'
  exact ⟨⟨l, hl, ha.1 ▸ hmoves⟩, hr⟩

theorem Quiet.guarded_seq {h : HiHandle δ} {m : Prog α} {f : α → Prog β} {R : β → Prop}
    (hm : Quiet m fun _ => True) (hf : ∀ a, Guarded h (f a) R) : Guarded h (m >>= f) R :=
  hm.guarded_bind fun a _ => hf a

/-- The program leaves the world alone, and returns what satisfies `Q`. -/
def Silent (m : Prog α) (Q : α → Prop) : Prop :=
  ∀ w, Partial m w fun a w' => w' = w ∧ Q a

namespace Silent

variable {m : Prog α} {P Q : α → Prop}

theorem quiet (h : Silent m Q) : Quiet m Q :=
  fun w => (h w).imp fun _ _ h' => ⟨congrArg World.lockMoves h'.1, h'.2⟩

theorem locks {A : List LockName} (h : Silent m Q) : Locks m A A Q := h.quiet.locks

theorem pure {a : α} (h : Q a) : Silent (Pure.pure a) Q := fun _ => ⟨rfl, h⟩

theorem fault {e : Fault} : Silent (Prog.fault e) Q := fun _ => trivial

theorem bind {f : α → Prog β} {R : β → Prop} (hm : Silent m P) (hf : ∀ a, P a → Silent (f a) R) :
    Silent (m >>= f) R :=
  fun w => Runs.bind (hm w) fun a w' _ h => h.1 ▸ hf a h.2 w'

theorem seq {f : α → Prog β} {R : β → Prop} (hm : Silent m fun _ => True)
    (hf : ∀ a, Silent (f a) R) : Silent (m >>= f) R :=
  hm.bind fun a _ => hf a

theorem partial_bind {f : α → Prog β} {w : World} {R : β → World → Prop} (hm : Silent m P)
    (hf : ∀ a, P a → Partial (f a) w R) : Partial (m >>= f) w R :=
  Runs.bind (hm w) fun a _ _ h => h.1 ▸ hf a h.2

end Silent

/-! ## Memory -/

section Memory

variable {A : List LockName}

theorem quiet_event {e : Event} (he : e.lockMove? = none) :
    Quiet (record e) fun _ => True := by
  intro w
  refine ⟨?_, trivial⟩
  rw [World.log_lockMoves, he]
  exact List.append_nil _

theorem locks_acquire {e : Event} {l : LockName} (he : e.lockMove? = some (.acquire l))
    (hl : l ∉ A) : Locks (record e) A (l :: A) fun _ => True := by
  intro w hw
  refine ⟨?_, trivial⟩
  rw [World.log_held hw, he, Option.toList_some, holding_singleton, hold_acquire hl]

theorem locks_release {e : Event} {l : LockName} (he : e.lockMove? = some (.release l)) :
    Locks (record e) (l :: A) A fun _ => True := by
  intro w hw
  refine ⟨?_, trivial⟩
  rw [World.log_held hw, he, Option.toList_some, holding_singleton, hold_release]

theorem moves_mutexLock {m : Option Ptr} :
    Moves (lhiPthreadMutexLock m) [.acquire (.mutex m)] fun _ => True := .event rfl

theorem moves_mutexUnlock {m : Option Ptr} :
    Moves (lhiPthreadMutexUnlock m) [.release (.mutex m)] fun _ => True := .event rfl

theorem moves_rdlock {m : Option Ptr} :
    Moves (lhiPthreadRwlockRdlock m) [.acquire (.rwlock m)] fun _ => True := .event rfl

theorem moves_wrlock {m : Option Ptr} :
    Moves (lhiPthreadRwlockWrlock m) [.acquire (.rwlock m)] fun _ => True := .event rfl

theorem moves_rwUnlock {m : Option Ptr} :
    Moves (lhiPthreadRwlockUnlock m) [.release (.rwlock m)] fun _ => True := .event rfl

theorem locks_mutexLock {m : Option Ptr} :
    Locks (lhiPthreadMutexLock m) [] [.mutex m] fun _ => True :=
  locks_acquire rfl List.not_mem_nil

theorem locks_mutexUnlock {m : Option Ptr} :
    Locks (lhiPthreadMutexUnlock m) (.mutex m :: A) A fun _ => True := locks_release rfl

theorem locks_rdlock {m : Option Ptr} :
    Locks (lhiPthreadRwlockRdlock m) [] [.rwlock m] fun _ => True :=
  locks_acquire rfl List.not_mem_nil

theorem locks_wrlock {m : Option Ptr} (h : .rwlock m ∉ A) :
    Locks (lhiPthreadRwlockWrlock m) A (.rwlock m :: A) fun _ => True := locks_acquire rfl h

theorem locks_rwUnlock {m : Option Ptr} :
    Locks (lhiPthreadRwlockUnlock m) (.rwlock m :: A) A fun _ => True := locks_release rfl

theorem quiet_deref {heap : Heap α} {p : Option Ptr} : Quiet (deref heap p) fun _ => True := by
  unfold deref
  split
  · exact .fault
  · split
    · exact .fault
    · exact .pure trivial

theorem quiet_assign {heap : Heap α} {p : Option Ptr} {f : α → α} :
    Quiet (assign heap p f) fun _ => True := by
  unfold assign
  split
  · exact .fault
  · split
    · exact .fault
    · exact .pure trivial

theorem silent_load {b : Block α} {i : Nat} : Silent (b.load i) fun a => b.cells[i]? = some a := by
  unfold Block.load
  split
  · exact .fault
  · exact .fault
  · rename_i h
    exact .pure h

theorem quiet_load {b : Block α} {i : Nat} : Quiet (b.load i) fun _ => True :=
  silent_load.quiet.imp fun _ _ => trivial

theorem silent_store {b : Block α} {i : Nat} {v : α} :
    Silent (b.store i v) fun b' => i < b.cells.length ∧ b' = { b with cells := b.cells.set i v } := by
  unfold Block.store
  split
  · exact .fault
  · split
    · rename_i hi
      exact .pure ⟨hi, rfl⟩
    · exact .fault

theorem quiet_store {b : Block α} {i : Nat} {v : α} : Quiet (b.store i v) fun _ => True :=
  silent_store.quiet.imp fun _ _ => trivial

theorem quiet_loadWritten {b : Block (Option α)} {i : Nat} :
    Quiet (b.loadWritten i) fun _ => True := by
  refine quiet_load.seq fun a => ?_
  cases a with
  | none => exact .fault
  | some a => exact .pure trivial

theorem silent_written {field : Option α} : Silent (written field) fun a => field = some a := by
  cases field with
  | none => exact .fault
  | some a => exact .pure rfl

theorem quiet_written {field : Option α} : Quiet (written field) fun _ => True :=
  silent_written.quiet.imp fun _ _ => trivial

theorem quiet_memcpy {p : Ptr} {src : Bytes} {n : Nat} :
    Quiet (memcpy p src n) fun _ => True := by
  unfold memcpy
  split
  · exact .pure trivial
  · exact .fault

theorem quiet_walkBound : Quiet walkBound fun _ => True := fun _ => ⟨rfl, trivial⟩

theorem quiet_answer : Quiet answer fun _ => True := fun _ => ⟨rfl, trivial⟩

theorem quiet_free {p : Option Ptr} : Quiet (free p) fun _ => True := by
  cases p with
  | none => exact .pure trivial
  | some p => exact quiet_event rfl

theorem quiet_request : Quiet request fun _ => True := by
  refine quiet_answer.seq fun r => ?_
  obtain ⟨p, e | junk⟩ := r
  · exact .pure trivial
  · exact (quiet_event rfl).seq fun _ => .pure trivial

theorem quiet_xallocAlign : Quiet xallocAlign fun _ => True := by
  refine quiet_request.seq fun r => ?_
  cases r <;> exact .pure trivial

theorem quiet_malloc : Quiet malloc fun _ => True := by
  refine quiet_request.seq fun r => ?_
  cases r <;> exact .pure trivial

theorem quiet_lockInit : Quiet lhiPthreadLockInit fun _ => True := by
  refine quiet_malloc.seq fun r => ?_
  cases r with
  | none => exact .pure trivial
  | some p =>
    refine quiet_answer.seq fun r => ?_
    obtain ⟨q, e | junk⟩ := r
    · exact quiet_free.seq fun _ => .pure trivial
    · exact .pure trivial

theorem quiet_realloc {old : Option Ptr} : Quiet (realloc old) fun _ => True := by
  refine quiet_malloc.seq fun r => ?_
  cases r with
  | none => exact .pure trivial
  | some fresh => exact quiet_free.seq fun _ => .pure trivial

theorem quiet_sizeDiv {a b : Nat} : Quiet (sizeDiv a b) fun _ => True := by
  unfold sizeDiv
  split
  · exact .fault
  · exact .pure trivial

theorem silent_bucketOf {h : HiHandle δ} {key : Bytes} {keylen : UInt32} :
    Silent (h.bucketOf key keylen)
      fun b => b = (h.hashFunc.run key keylen % h.tableSize).toNat := by
  unfold HiHandle.bucketOf umod
  split
  · exact .bind (P := fun _ => False) .fault fun _ hf => hf.elim
  · exact .pure rfl

theorem quiet_bucketOf {h : HiHandle δ} {key : Bytes} {keylen : UInt32} :
    Quiet (h.bucketOf key keylen) fun _ => True :=
  silent_bucketOf.quiet.imp fun _ _ => trivial

theorem quiet_hash2 {h : HiHandle δ} {key : Bytes} {keylen : UInt32} :
    Quiet (h.hash2 key keylen) fun _ => True := by
  unfold HiHandle.hash2
  split
  · exact .fault
  · exact .pure trivial

theorem quiet_ofExcept {x : Except Fault α} : Quiet (Prog.ofExcept x) fun _ => True := by
  intro w
  cases x with
  | error e => trivial
  | ok a => exact ⟨rfl, trivial⟩

theorem quiet_lockDestroy {l : LockName} : Quiet (lhiPthreadLockDestroy l) fun _ => True :=
  fun _ => runs_lockDestroy fun _ _ _ _ hl _ => ⟨hl, trivial⟩

end Memory

/-- The handles agree in their settings and their mutex. -/
def Kin (h h' : HiHandle δ) : Prop :=
  h'.toUserSettings = h.toUserSettings ∧ h'.mutexLock = h.mutexLock

theorem Kin.trans {h₀ h₁ h₂ : HiHandle δ} (h : Kin h₀ h₁) (h' : Kin h₁ h₂) : Kin h₀ h₂ :=
  ⟨h'.1.trans h.1, h'.2.trans h.2⟩

/-! ## The list engines -/

section List

variable {h : HiHandle δ} {key : Bytes} {keylen : UInt32} {hit : HiBucketHlObj δ → Bool}
  {bucket : Nat} {A : List LockName}

theorem quiet_seekBucket : Quiet (h.seekBucket bucket hit) fun _ => True := by
  have hseek : ∀ fuel p bObj, Quiet (seek h.objs hit fuel p bObj) fun _ => True := by
    intro fuel
    induction fuel with
    | zero => exact fun _ _ => .fault
    | succ fuel ih =>
      intro p bObj
      cases bObj with
      | none => exact .pure trivial
      | some bObj =>
        refine quiet_deref.seq fun obj => ?_
        split
        · exact .pure trivial
        · exact ih _ _
  exact quiet_load.seq fun _ => quiet_walkBound.seq fun _ => hseek _ _ _

theorem quiet_seekStatus : Quiet (do
    match ← h.seekBucket bucket hit with
    | some _ => pure success
    | none => pure hiErrNokey) fun _ => True :=
  quiet_seekBucket.seq fun r => by cases r <;> exact .pure trivial

theorem quiet_lhiLookupList : Quiet (lhiLookupList h key keylen) fun _ => True := by
  refine quiet_bucketOf.seq fun bucket => ?_
  split
  · exact quiet_seekStatus
  · exact quiet_seekStatus
  · exact quiet_hash2.seq fun _ => quiet_seekStatus
  · exact quiet_hash2.seq fun _ => quiet_seekStatus
  · exact .pure trivial

theorem quiet_unlinkObj {p next : Option Ptr} {bObj : Ptr} :
    Quiet (h.unlinkObj bucket p bObj next) fun h' => Kin h h' := by
  unfold HiHandle.unlinkObj
  split
  · exact quiet_store.seq fun _ => .pure ⟨rfl, rfl⟩
  · exact quiet_assign.seq fun _ => .pure ⟨rfl, rfl⟩

theorem moves_removeHit :
    Moves (h.removeHit bucket hit) [.release (.mutex h.mutexLock)] fun r => Kin h r.2 := by
  refine quiet_seekBucket.moves_seq fun r => ?_
  cases r with
  | none => exact moves_mutexUnlock.seq fun _ => .pure ⟨rfl, rfl⟩
  | some r =>
    refine quiet_deref.moves_seq fun obj => quiet_unlinkObj.moves_bind fun h' hk => ?_
    rw [← hk.2]
    exact quiet_free.moves_seq fun _ => quiet_free.moves_seq fun _ => quiet_load.moves_seq fun _ =>
      quiet_store.moves_seq fun _ => moves_mutexUnlock.seq fun _ => .pure hk

theorem guarded_lhiRemoveList : Guarded h (lhiRemoveList h key keylen) fun r => Kin h r.2 := by
  refine .of_moves (.inl rfl) (moves_mutexLock.seq fun _ => quiet_bucketOf.moves_seq fun bucket => ?_)
  split
  · exact moves_removeHit
  · exact moves_removeHit
  · exact quiet_hash2.moves_seq fun _ => moves_removeHit
  · exact quiet_hash2.moves_seq fun _ => moves_removeHit
  · exact moves_mutexUnlock.seq fun _ => .pure ⟨rfl, rfl⟩

theorem moves_getHit :
    Moves (h.getHit bucket hit) [.release (.mutex h.mutexLock)] fun _ => True := by
  refine quiet_seekBucket.moves_seq fun r => ?_
  cases r with
  | none => exact moves_mutexUnlock.seq fun _ => .pure trivial
  | some r => exact quiet_deref.moves_seq fun _ => moves_mutexUnlock.seq fun _ => .pure trivial

theorem quiet_moveToFront {p next : Option Ptr} {bObj : Ptr} :
    Quiet (h.moveToFront bucket p bObj next) fun h' => Kin h h' :=
  quiet_assign.seq fun _ => quiet_load.seq fun _ => quiet_assign.seq fun _ =>
    quiet_store.seq fun _ => .pure ⟨rfl, rfl⟩

theorem locks_getHitMtf :
    Locks (h.getHitMtf bucket hit) [.mutex h.mutexLock] [] fun r => Kin h r.2 := by
  refine quiet_seekBucket.locks_seq fun r => ?_
  cases r with
  | none => exact locks_mutexUnlock.seq fun _ => .pure ⟨rfl, rfl⟩
  | some r =>
    obtain ⟨p, bObj⟩ := r
    refine quiet_deref.locks_seq fun obj => ?_
    have hunlock : ∀ h' : HiHandle δ, Kin h h' → Locks (do
        lhiPthreadMutexUnlock h'.mutexLock
        pure ((⟨success, some obj.data⟩ : Result δ), h')) [.mutex h.mutexLock] []
        fun r => Kin h r.2 :=
      fun h' hk => hk.2 ▸ locks_mutexUnlock.seq fun _ => .pure hk
    dsimp only
    split
    · exact quiet_moveToFront.locks_bind hunlock
    · exact Locks.bind (.pure ⟨rfl, rfl⟩) hunlock

/-- All engines but `COLL_ENG_LIST_MTF`, which unlocks a mutex it did not lock. -/
theorem locks_lhiGetList (he : h.collEng ≠ .listMtf) :
    Locks (lhiGetList h key keylen) [] [] fun r => Kin h r.2 := by
  refine quiet_bucketOf.locks_seq fun bucket => ?_
  split
  · exact (Guarded.of_moves (.inl rfl) (moves_mutexLock.seq fun _ => moves_getHit.seq fun _ =>
      .pure ⟨rfl, rfl⟩)).locks
  · rename_i hmtf
    exact (he hmtf).elim
  · exact (Guarded.of_moves (.inl rfl) (moves_mutexLock.seq fun _ => quiet_hash2.moves_seq fun _ =>
      moves_getHit.seq fun _ => .pure ⟨rfl, rfl⟩)).locks
  · exact locks_mutexLock.seq fun _ => quiet_hash2.locks_seq fun _ => locks_getHitMtf
  · exact .pure ⟨rfl, rfl⟩

theorem guarded_lhiInsertList {data : δ} :
    Guarded h (lhiInsertList h key keylen data) fun r => Kin h r.2 := by
  refine .of_moves (.inl rfl) (moves_mutexLock.seq fun _ => quiet_bucketOf.moves_seq fun bucket =>
    quiet_xallocAlign.moves_seq fun obj => ?_)
  cases obj with
  | error ret => exact moves_mutexUnlock.seq fun _ => .pure ⟨rfl, rfl⟩
  | ok obj =>
    refine quiet_xallocAlign.moves_seq fun dupkey => ?_
    cases dupkey with
    | error ret =>
      exact quiet_free.moves_seq fun _ => moves_mutexUnlock.seq fun _ => .pure ⟨rfl, rfl⟩
    | ok dupkey =>
      exact quiet_memcpy.moves_seq fun _ => quiet_load.moves_seq fun _ => quiet_store.moves_seq fun _ =>
        quiet_load.moves_seq fun _ => quiet_store.moves_seq fun _ => moves_mutexUnlock.seq fun _ =>
          .pure ⟨rfl, rfl⟩

theorem quiet_lhiFiniList :
    Quiet (lhiFiniList h) fun r => r.2.mutexLock = h.mutexLock := by
  have hchain : ∀ fuel objs (v : Option Ptr),
      Quiet (freeChain (δ := δ) fuel objs v) fun _ => True := by
    intro fuel
    induction fuel with
    | zero => exact fun _ _ => .fault
    | succ fuel ih =>
      intro objs v
      cases v with
      | none => exact .pure trivial
      | some v =>
        exact quiet_deref.seq fun _ => quiet_free.seq fun _ => quiet_free.seq fun _ => ih _ _
  unfold lhiFiniList
  refine quiet_walkBound.seq fun fuel => Quiet.seq ?_ fun objs => ?_
  · exact .forUp fun i objs => quiet_load.seq fun _ => hchain _ _ _
  · exact quiet_free.seq fun _ => .pure rfl

theorem quiet_lhiCreateEngList : Quiet (lhiCreateEngList h) fun _ => True := by
  refine quiet_xallocAlign.seq fun r => ?_
  cases r <;> exact .pure trivial

end List

/-! ## The tree engine -/

section Rbtree

variable {h : HiHandle δ} {key : Bytes} {keylen : UInt32} {tree : Nat} {A : List LockName}

theorem quiet_rbDescend {fuel : Nat} {p parent : Option Ptr} {link : RbLink} :
    Quiet (rbDescend h key fuel p parent link) fun _ => True := by
  induction fuel generalizing p parent link with
  | zero => exact .fault
  | succ fuel ih =>
    cases p with
    | none => exact .pure trivial
    | some p =>
      refine quiet_deref.seq fun e => ?_
      dsimp only
      split
      · exact .pure trivial
      · refine quiet_deref.seq fun n => ?_
        split
        · exact ih
        · exact ih

theorem quiet_descend : Quiet (h.descend tree key) fun _ => True :=
  quiet_load.seq fun _ => quiet_walkBound.seq fun _ => quiet_rbDescend

theorem quiet_onTree {f : RbRoot → Except Fault RbRoot} :
    Quiet (h.onTree tree f) fun h' => Kin h h' :=
  quiet_load.seq fun _ => quiet_ofExcept.seq fun _ => quiet_store.seq fun _ => .pure ⟨rfl, rfl⟩

theorem quiet_loadTree : Quiet (h.trees.load tree) fun t => t ∈ h.trees.cells :=
  silent_load.quiet.imp fun _ => List.mem_of_getElem?

theorem guarded_lhiGetRbtreeNode {root : Option Ptr} :
    Guarded h (lhiGetRbtreeNode h tree root key) fun _ => True := by
  refine quiet_loadTree.guarded_bind fun t ht => .of_moves (.inr ⟨t, ht, rfl⟩) ?_
  refine moves_rdlock.seq fun _ => quiet_walkBound.moves_seq fun _ =>
    quiet_rbDescend.moves_seq fun r => ?_
  cases r with
  | found p => exact quiet_deref.moves_seq fun _ => moves_rwUnlock.seq fun _ => .pure trivial
  | missing parent link => exact moves_rwUnlock.seq fun _ => .pure trivial

theorem locks_lhiGetRbtree : Locks (lhiGetRbtree h key keylen) [] [] fun _ => True :=
  quiet_bucketOf.locks_seq fun _ => quiet_load.locks_seq fun _ => guarded_lhiGetRbtreeNode.locks

theorem guarded_lhiRemoveRbtreeNode :
    Guarded h (lhiRemoveRbtreeNode h key keylen) fun r => Kin h r.2 := by
  refine quiet_bucketOf.guarded_seq fun tree => quiet_loadTree.guarded_bind fun t ht =>
    .of_moves (.inr ⟨t, ht, rfl⟩) ?_
  refine moves_wrlock.seq fun _ => quiet_descend.moves_seq fun r => ?_
  cases r with
  | found p =>
    refine quiet_deref.moves_seq fun e => quiet_walkBound.moves_seq fun fuel =>
      quiet_onTree.moves_bind fun h' hk => ?_
    exact quiet_free.moves_seq fun _ => quiet_free.moves_seq fun _ => quiet_load.moves_seq fun _ =>
      quiet_store.moves_seq fun _ => moves_rwUnlock.seq fun _ => .pure hk
  | missing parent link => exact moves_rwUnlock.seq fun _ => .pure ⟨rfl, rfl⟩

theorem guarded_uncountObject : Guarded h h.uncountObject fun h' => Kin h h' :=
  .of_moves (.inl rfl) (moves_mutexLock.seq fun _ => moves_mutexUnlock.seq fun _ => .pure ⟨rfl, rfl⟩)

theorem locks_lhiRemoveRbtree :
    Locks (lhiRemoveRbtree h key keylen) [] [] fun r => Kin h r.2 := by
  refine guarded_lhiRemoveRbtreeNode.locks.bind fun r hk => ?_
  obtain ⟨r, h'⟩ := r
  dsimp only at hk ⊢
  split
  · exact guarded_uncountObject.locks.bind fun _ hk' => .pure (hk.trans hk')
  · exact .pure hk

theorem quiet_lhiRbEntryNew {data : δ} : Quiet (lhiRbEntryNew key data keylen) fun _ => True := by
  refine quiet_malloc.seq fun node => ?_
  cases node with
  | none => exact .pure trivial
  | some node =>
    refine quiet_malloc.seq fun dupkey => ?_
    cases dupkey with
    | none => exact quiet_free.seq fun _ => .pure trivial
    | some dupkey => exact quiet_memcpy.seq fun _ => .pure trivial

theorem guarded_lhiInsertRbtreeNode {data : δ} :
    Guarded h (lhiInsertRbtreeNode h key keylen data) fun r => Kin h r.2 := by
  refine quiet_bucketOf.guarded_seq fun tree => quiet_loadTree.guarded_bind fun t ht =>
    .of_moves (.inr ⟨t, ht, rfl⟩) ?_
  refine moves_wrlock.seq fun _ => quiet_descend.moves_seq fun r => ?_
  cases r with
  | found p => exact moves_rwUnlock.seq fun _ => .pure ⟨rfl, rfl⟩
  | missing parent link =>
    refine quiet_lhiRbEntryNew.moves_seq fun e => ?_
    cases e with
    | none => exact moves_rwUnlock.seq fun _ => .pure ⟨rfl, rfl⟩
    | some e =>
      refine quiet_walkBound.moves_seq fun fuel => quiet_onTree.moves_bind fun h' hk => ?_
      exact quiet_load.moves_seq fun _ => quiet_store.moves_seq fun _ => moves_rwUnlock.seq fun _ =>
        .pure hk

theorem guarded_countObject : Guarded h h.countObject fun h' => Kin h h' :=
  .of_moves (.inl rfl) (moves_mutexLock.seq fun _ => moves_mutexUnlock.seq fun _ => .pure ⟨rfl, rfl⟩)

theorem locks_lhiInsertRbtree {data : δ} :
    Locks (lhiInsertRbtree h key keylen data) [] [] fun r => Kin h r.2 := by
  refine guarded_lhiInsertRbtreeNode.locks.bind fun r hk => ?_
  obtain ⟨ret, h'⟩ := r
  dsimp only at hk ⊢
  split
  · exact guarded_countObject.locks.bind fun _ hk' => .pure (hk.trans hk')
  · exact .pure hk

/-- The locks of the trees are held one at a time, on top of mutexes. -/
theorem locks_lhiFiniRbtree (hA : ∀ m, .rwlock m ∉ A) :
    Locks (lhiFiniRbtree h) A A fun r => r.2.mutexLock = h.mutexLock := by
  unfold lhiFiniRbtree
  refine Locks.seq (B := A) ?_ fun _ => ?_
  · exact .forUp fun i _ => quiet_load.locks_seq fun t => (locks_wrlock (hA _)).seq fun _ =>
      locks_rwUnlock.seq fun _ => quiet_lockDestroy.locks_seq fun _ => .pure trivial
  · exact quiet_free.locks_seq fun _ => .pure rfl

theorem quiet_initTrees {n : Nat} {trees : List HiRbTree} :
    Quiet (initTrees n trees) fun _ => True := by
  have hdestroy : ∀ trees : List HiRbTree, Quiet (trees.forM fun t => do
      let _ ← lhiPthreadRwlockDestroy t.rwlock
      pure ()) fun _ => True := by
    intro trees
    induction trees with
    | nil => exact .pure trivial
    | cons t trees ih => exact (quiet_lockDestroy.seq fun _ => .pure trivial).seq fun _ => ih
  induction n generalizing trees with
  | zero => exact .pure trivial
  | succ n ih =>
    refine quiet_lockInit.seq fun r => ?_
    cases r with
    | error e => exact (hdestroy _).seq fun _ => .pure trivial
    | ok lock => exact ih

/-- The loop fails for want of memory only. -/
theorem partial_initTrees {n : Nat} {trees : List HiRbTree} {w : World} (hs : w.Serves (2 * n)) :
    Partial (initTrees n trees) w fun r _ => ∃ cells, r = .ok cells := by
  induction n generalizing trees w with
  | zero => exact ⟨trees, rfl⟩
  | succ n ih =>
    refine runs_bind.mpr (runs_lhiPthreadLockInit_refused ?_ ?_)
    · intro ret m w₁ hm _ hr
      exact (hr.not_serves (Nat.lt_of_lt_of_le hm (by omega)) hs).elim
    · intro lock w₁ hw₁ hserved _
      rw [Nat.mul_succ, Nat.add_comm] at hs
      exact ih ((hserved.serves_add hw₁).mp hs)

/-- Creation keeps to the discipline unless the lock of a tree cannot be initialised. -/
theorem partial_lhiCreateEngRbtree {w : World} (hw : w.held = some [])
    (hready : w.Serves 1 → w.Serves (1 + 2 * h.tableSize.toNat)) :
    Partial (lhiCreateEngRbtree h) w fun _ w' => w'.held = some [] := by
  have hmalloc : Partial malloc w fun r w' =>
      w'.held = some [] ∧ (r = none ∨ w.Served 1 w') := by
    refine ((quiet_malloc.locks w hw).and_returned (runs_malloc_refused ?_ ?_)).imp fun r w' h' =>
      ⟨h'.1.1, h'.2⟩
    · exact fun _ _ _ => .inl rfl
    · exact fun junk w' _ hreq hblock _ => .inr (.one hreq hblock)
  refine Runs.bind hmalloc fun r w₁ hw₁ h₁ => ?_
  obtain ⟨hheld, hr⟩ := h₁
  cases r with
  | none => exact hheld
  | some trees =>
    have hserved : w.Served 1 w₁ := hr.resolve_left nofun
    have hlocked : (w₁.log (.lock h.mutexLock)).held = some [.mutex h.mutexLock] :=
      (locks_mutexLock w₁ hheld).1
    have htrees : Partial (initTrees h.tableSize.toNat []) (w₁.log (.lock h.mutexLock))
        fun r _ => ∃ cells, r = .ok cells :=
      partial_initTrees ((hserved.serves_add hw₁).mp (hready hserved.serves))
    refine runs_bind.mpr (runs_mutexLock.mpr ?_)
    refine Runs.bind ((quiet_initTrees.locks _ hlocked).and_returned htrees) fun r w₂ _ h₂ => ?_
    obtain ⟨⟨hheld₂, -⟩, cells, rfl⟩ := h₂
    exact Locks.ends (Q := fun _ => True) (locks_mutexUnlock.seq fun _ => .pure trivial) hheld₂

end Rbtree

/-! ## The array engine -/

section Array

variable {h : HiHandle δ} {key : Bytes} {keylen : UInt32} {bucket : Nat} {A : List LockName}

theorem silent_slot {i : Nat} : Silent (h.slot bucket i) fun slot =>
    ∃ slots, h.bucketArray.cells[bucket]? = some slots ∧ slots.cells[i]? = some slot :=
  silent_load.bind fun slots hslots => fun w => (silent_load w).imp fun _ _ h' =>
    ⟨h'.1, slots, hslots, h'.2⟩

theorem quiet_slot {i : Nat} : Quiet (h.slot bucket i) fun _ => True :=
  silent_slot.quiet.imp fun _ _ => trivial

/-- A slot is marked as not allocated. -/
def HasFree (cells : List (HiBucketAObj δ)) : Prop :=
  ∃ slot ∈ cells, slot.allocation = some .baNotAllocated

theorem quiet_setSlot {i : Nat} {slot : HiBucketAObj δ} :
    Quiet (h.setSlot bucket i slot) fun h' => Kin h h' :=
  quiet_load.seq fun _ => quiet_store.seq fun _ => quiet_store.seq fun _ => .pure ⟨rfl, rfl⟩

theorem silent_scanBucket : Silent (h.scanBucket bucket key) fun _ => True := by
  have hscan : ∀ size n i seen, Silent (scan h bucket size key n i seen) fun _ => True := by
    intro size n
    induction n with
    | zero => exact fun _ _ => .pure trivial
    | succ n ih =>
      intro i seen
      rw [scan]
      split
      · exact .pure trivial
      refine silent_slot.bind fun slot _ => silent_written.bind fun a _ => ?_
      cases a with
      | baNotAllocated => exact ih _ _
      | baAllocated =>
        refine silent_written.bind fun e _ => ?_
        split
        · exact .pure trivial
        · exact ih _ _
  exact silent_load.bind fun _ _ => silent_load.bind fun _ _ => hscan _ _ _ _

/-- A search of `COLL_ENG_ARRAY`. The other array engines search nothing. -/
theorem guarded_lhiGetArray (he : h.collEng = .array) :
    Guarded h (lhiGetArray h key keylen) fun _ => True := by
  refine quiet_bucketOf.guarded_seq fun bucket => ?_
  simp only [he]
  refine .of_moves (.inl rfl)
    (moves_mutexLock.seq fun _ => silent_scanBucket.quiet.moves_seq fun r => ?_)
  cases r <;> exact moves_mutexUnlock.seq fun _ => .pure trivial

theorem locks_lhiGetArray : Locks (lhiGetArray h key keylen) [] [] fun _ => True := by
  by_cases he : h.collEng = .array
  · exact (guarded_lhiGetArray he).locks
  · refine quiet_bucketOf.locks_seq fun bucket => ?_
    split
    · rename_i he'
      exact (he he').elim
    all_goals exact .pure trivial

theorem guarded_lhiRemoveArray (he : h.collEng = .array) :
    Guarded h (lhiRemoveArray h key keylen) fun r => Kin h r.2 := by
  refine quiet_bucketOf.guarded_seq fun bucket => ?_
  simp only [he]
  refine .of_moves (.inl rfl)
    (moves_mutexLock.seq fun _ => silent_scanBucket.quiet.moves_seq fun r => ?_)
  cases r with
  | none => exact moves_mutexUnlock.seq fun _ => .pure ⟨rfl, rfl⟩
  | some r =>
    refine quiet_free.moves_seq fun _ => quiet_slot.moves_seq fun slot =>
      quiet_setSlot.moves_bind fun h' hk => ?_
    rw [← hk.2]
    exact quiet_load.moves_seq fun _ => quiet_store.moves_seq fun _ =>
      moves_mutexUnlock.seq fun _ => .pure hk

theorem locks_lhiRemoveArray : Locks (lhiRemoveArray h key keylen) [] [] fun r => Kin h r.2 := by
  by_cases he : h.collEng = .array
  · exact (guarded_lhiRemoveArray he).locks
  · refine quiet_bucketOf.locks_seq fun bucket => ?_
    split
    · rename_i he'
      exact (he he').elim
    · exact .pure ⟨rfl, rfl⟩

theorem quiet_growBucket : Quiet (h.growBucket bucket) fun r => Kin h r.1 := by
  refine quiet_load.seq fun size => quiet_load.seq fun max => ?_
  split
  · refine quiet_store.seq fun _ => quiet_load.seq fun slots => ?_
    have hrealloc : ∀ n, Quiet (reallocSlots slots n) fun _ => True := fun n =>
      quiet_realloc.seq fun r => by cases r <;> exact .pure trivial
    refine (hrealloc _).seq fun r => ?_
    cases r <;> exact quiet_store.seq fun _ => .pure ⟨rfl, rfl⟩
  · exact .pure ⟨rfl, rfl⟩

/-- A slot that is found is free. -/
theorem silent_firstFree {n i : Nat} : Silent (firstFree h bucket n i) fun r => r = none ∨
    ∃ slots, h.bucketArray.cells[bucket]? = some slots ∧ HasFree slots.cells := by
  induction n generalizing i with
  | zero => exact .pure (.inl rfl)
  | succ n ih =>
    refine silent_slot.bind fun slot hslot => silent_written.bind fun a ha => ?_
    obtain ⟨slots, hslots, hi⟩ := hslot
    cases a with
    | baNotAllocated =>
      exact .pure (.inr ⟨slots, hslots, slot, List.mem_of_getElem? hi, ha⟩)
    | baAllocated => exact ih

/-- The mutex is taken and released once more. -/
theorem moves_lhiFiniArray : Moves (lhiFiniArray h)
    [.acquire (.mutex h.mutexLock), .release (.mutex h.mutexLock)]
    fun r => r.2.mutexLock = h.mutexLock := by
  have hslots : ∀ b n i, Quiet (freeSlots h b n i) fun _ => True := by
    intro b n
    induction n with
    | zero => exact fun _ => .pure trivial
    | succ n ih =>
      intro i
      refine quiet_slot.seq fun slot => quiet_written.seq fun a => ?_
      cases a with
      | baNotAllocated => exact ih _
      | baAllocated => exact quiet_written.seq fun e => quiet_free.seq fun _ => ih _
  refine (Moves.event rfl).seq fun _ => Quiet.moves_seq ?_ fun _ => ?_
  · exact .forUp fun i _ => quiet_load.seq fun n => (hslots _ _ _).seq fun _ =>
      quiet_load.seq fun _ => quiet_free
  · exact quiet_free.moves_seq fun _ => quiet_free.moves_seq fun _ => quiet_free.moves_seq fun _ =>
      (Moves.event rfl).seq fun _ => .pure rfl

theorem quiet_lhiCreateEngArray : Quiet (lhiCreateEngArray h) fun _ => True := by
  have hinit : ∀ slots n (buckets : List (Block (HiBucketAObj δ))),
      Quiet (initBuckets slots n buckets) fun _ => True := by
    intro slots n
    induction n with
    | zero => exact fun _ => .pure trivial
    | succ n ih =>
      intro buckets
      refine quiet_xallocAlign.seq fun r => ?_
      cases r with
      | error e => exact .pure trivial
      | ok fresh => exact ih _
  refine quiet_xallocAlign.seq fun r₁ => ?_
  cases r₁ with
  | error e => exact .pure trivial
  | ok slotSize =>
  refine quiet_xallocAlign.seq fun r₂ => ?_
  cases r₂ with
  | error e => exact .pure trivial
  | ok slotMax =>
  refine quiet_xallocAlign.seq fun r₃ => ?_
  cases r₃ with
  | error e => exact .pure trivial
  | ok array =>
  refine (hinit _ _ _).seq fun r₄ => ?_
  cases r₄ <;> exact .pure trivial

end Array

/-! ## Snapshots and iterators -/

section Iterators

variable {h : HiHandle δ} {A : List LockName} {a : BucketArray δ} {i : HiIterator δ} {n : Nat}

theorem quiet_bucketArrayAlloc : Quiet (lhiBucketArrayAlloc a n) fun _ => True := by
  refine quiet_sizeDiv.seq fun q => ?_
  split
  · exact .pure trivial
  refine quiet_malloc.seq fun memD => ?_
  cases memD with
  | none => exact .pure trivial
  | some memD =>
  refine quiet_malloc.seq fun memK => ?_
  cases memK with
  | none => exact quiet_free.seq fun _ => .pure trivial
  | some memK =>
  refine quiet_sizeDiv.seq fun q => ?_
  split
  · exact quiet_free.seq fun _ => quiet_free.seq fun _ => .pure trivial
  refine quiet_malloc.seq fun keylen => ?_
  cases keylen with
  | none => exact quiet_free.seq fun _ => quiet_free.seq fun _ => .pure trivial
  | some keylen => exact .pure trivial

theorem quiet_put {j : Nat} {d : δ} {key : Block UInt8} {keyLen : UInt32} :
    Quiet (a.put j d key keyLen) fun _ => True :=
  quiet_store.seq fun _ => quiet_store.seq fun _ => quiet_store.seq fun _ => .pure trivial

theorem locks_listSnapshot : Locks (lhiListBucketToArray h n a) [] [] fun _ => True := by
  have hcopy : ∀ {B : List LockName} fuel bObj i (a : BucketArray δ),
      Locks (copyChain h.objs fuel bObj i a) B B fun _ => True := by
    intro B fuel
    induction fuel with
    | zero => exact fun _ _ _ => .fault
    | succ fuel ih =>
      intro bObj i a
      cases bObj with
      | none => exact .pure trivial
      | some bObj => exact quiet_deref.locks_seq fun _ => quiet_put.locks_seq fun _ => ih _ _ _
  unfold lhiListBucketToArray
  split
  · exact .pure trivial
  refine locks_mutexLock.seq fun _ => quiet_load.locks_seq fun max => ?_
  split
  · exact locks_mutexUnlock.seq fun _ => .pure trivial
  refine quiet_bucketArrayAlloc.locks_seq fun r => ?_
  obtain ⟨ret, a⟩ := r
  dsimp only
  split
  · exact locks_mutexUnlock.seq fun _ => .pure trivial
  have hwalk : Locks (do
      let bObj ← h.bucketTable.load n
      let fuel ← walkBound
      let a ← copyChain h.objs fuel bObj 0 a
      lhiPthreadMutexUnlock h.mutexLock
      pure ((0 : Int), a)) [.mutex h.mutexLock] [] fun _ => True :=
    quiet_load.locks_seq fun _ => quiet_walkBound.locks_seq fun _ => (hcopy _ _ _ _).seq fun _ =>
      locks_mutexUnlock.seq fun _ => .pure trivial
  split
  · exact hwalk
  · exact hwalk
  · exact hwalk
  · exact hwalk
  · exact locks_mutexUnlock.seq fun _ => .pure trivial

theorem silent_copySlots {b m i j : Nat} : Silent (copySlots h b m i j a) fun _ => True := by
  induction m generalizing i j a with
  | zero => exact .pure trivial
  | succ m ih =>
    refine silent_slot.bind fun slot _ => silent_written.bind fun s _ => ?_
    cases s with
    | baNotAllocated => exact ih
    | baAllocated =>
      exact silent_written.bind fun _ _ => silent_store.bind fun _ _ => silent_store.bind fun _ _ =>
        silent_store.bind fun _ _ => ih

theorem locks_arraySnapshot : Locks (lhiArrayBucketToArray h n a) [] [] fun _ => True := by
  refine locks_mutexLock.seq fun _ => quiet_load.locks_seq fun len => ?_
  split
  · exact locks_mutexUnlock.seq fun _ => .pure trivial
  refine quiet_bucketArrayAlloc.locks_seq fun r => ?_
  obtain ⟨ret, a⟩ := r
  dsimp only
  split
  · exact locks_mutexUnlock.seq fun _ => .pure trivial
  · exact silent_copySlots.locks.seq fun _ => locks_mutexUnlock.seq fun _ => .pure trivial

theorem locks_rbtreeSnapshot : Locks (lhiRbtreeBucketToArray h n a) [] [] fun _ => True := by
  have hwalk : ∀ {B : List LockName} fuel p pos (a : BucketArray δ),
      Locks (hiRbtreeTraverse h fuel p pos a) B B fun _ => True := by
    intro B fuel
    induction fuel with
    | zero => exact fun _ _ _ => .fault
    | succ fuel ih =>
      have hchild : ∀ child pos (a : BucketArray δ),
          Locks (traverseChild (hiRbtreeTraverse h fuel) child pos a) B B fun _ => True := by
        intro child pos a
        cases child with
        | none => exact .pure trivial
        | some p => exact ih _ _ _
      intro p pos a
      refine quiet_deref.locks_seq fun _ => (hchild _ _ _).seq fun _ => (hchild _ _ _).seq fun _ =>
        quiet_deref.locks_seq fun _ => ?_
      split
      · exact quiet_put.locks_seq fun _ => .pure trivial
      · exact .pure trivial
  unfold lhiRbtreeBucketToArray
  split
  · exact .pure trivial
  refine quiet_load.locks_seq fun t => ?_
  split
  · exact .pure trivial
  refine locks_rdlock.seq fun _ => quiet_load.locks_seq fun max => ?_
  split
  · exact locks_rwUnlock.seq fun _ => .pure trivial
  refine quiet_bucketArrayAlloc.locks_seq fun r => ?_
  obtain ⟨ret, a⟩ := r
  dsimp only
  split
  · exact locks_rwUnlock.seq fun _ => .pure trivial
  · exact quiet_walkBound.locks_seq fun _ => (hwalk _ _ _ _).seq fun _ => locks_rwUnlock.seq fun _ =>
      .pure trivial

theorem locks_getNextBucket {err : Int} : Locks (getNextBucket err h i) [] [] fun _ => True := by
  have hloop : ∀ {toArray : ToArray δ}, (∀ n a, Locks (toArray h n a) [] [] fun _ => True) →
      ∀ m i, Locks (getNextLoop toArray h m i) [] [] fun _ => True := by
    intro toArray hsnap m
    induction m with
    | zero => exact fun _ => .pure trivial
    | succ m ih =>
      intro i
      refine (hsnap _ _).seq fun r => ?_
      obtain ⟨res, a⟩ := r
      dsimp only
      split
      · exact .pure trivial
      split
      · exact .pure trivial
      · exact ih _
  unfold getNextBucket
  cases h.collEng <;> dsimp only
  case unset | max => exact .pure trivial
  case rbtree => exact hloop (fun _ _ => locks_rbtreeSnapshot) _ _
  case array | arrayHash | arrayDyn | arrayDynHash =>
    exact hloop (fun _ _ => locks_arraySnapshot) _ _
  case list | listHash | listMtf | listMtfHash => exact hloop (fun _ _ => locks_listSnapshot) _ _

theorem quiet_bucketArrayFree : Quiet (lhiBucketArrayFree a) fun _ => True :=
  quiet_free.seq fun _ => quiet_free.seq fun _ => quiet_free.seq fun _ => .pure trivial

theorem locks_hiIteratorCreate : Locks (hiIteratorCreate h) [] [] fun _ => True := by
  refine quiet_malloc.locks_seq fun it => ?_
  cases it with
  | none => exact .pure trivial
  | some it =>
    refine locks_getNextBucket.seq fun r => ?_
    obtain ⟨res, i⟩ := r
    dsimp only
    split
    · exact .pure trivial
    · exact quiet_free.locks_seq fun _ => .pure trivial

theorem locks_hiIteratorReset : Locks (hiIteratorReset h i) [] [] fun _ => True :=
  quiet_bucketArrayFree.locks_seq fun _ => locks_getNextBucket

theorem quiet_handOut : Quiet i.handOut fun _ => True :=
  quiet_loadWritten.seq fun _ => quiet_loadWritten.seq fun _ => quiet_loadWritten.seq fun _ =>
    .pure trivial

theorem locks_hiIteratorGetnext : Locks (hiIteratorGetnext h i) [] [] fun _ => True := by
  unfold hiIteratorGetnext
  split
  · exact quiet_handOut.locks_seq fun _ => .pure trivial
  refine quiet_bucketArrayFree.locks_seq fun a => locks_getNextBucket.seq fun r => ?_
  obtain ⟨ret, i⟩ := r
  dsimp only
  split
  · exact quiet_handOut.locks_seq fun _ => .pure trivial
  · exact .pure trivial

theorem quiet_hiIteratorFini : Quiet (hiIteratorFini i) fun _ => True :=
  quiet_bucketArrayFree.seq fun _ => quiet_free

end Iterators

end Hashish
