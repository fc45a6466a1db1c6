import Hashish.Sessions

/-!
# Divisions by zero

`NoDiv m Q` says that the program `m` never divides by zero, whatever is in memory and
however it ends otherwise, and that what it returns satisfies `Q`. Every engine function
has this property as long as its table has a size, and none changes the settings.
-/

namespace Hashish

open Hashish.Lib

variable {α β δ : Type}

/-- From every world, `m` does not divide by zero, and what it returns satisfies `Q`. -/
def NoDiv (m : Prog α) (Q : α → Prop) : Prop :=
  ∀ w, Runs (· ≠ .divByZero) m w fun a _ => Q a

namespace NoDiv

variable {m : Prog α} {P Q : α → Prop}

theorem pure {a : α} (h : Q a) : NoDiv (Pure.pure a) Q := fun _ => h

theorem fault {e : Fault} (h : e ≠ .divByZero) : NoDiv (Prog.fault e) Q := fun _ => h

theorem bind {f : α → Prog β} {R : β → Prop} (hm : NoDiv m P) (hf : ∀ a, P a → NoDiv (f a) R) :
    NoDiv (m >>= f) R :=
  fun w => Runs.bind (hm w) fun a w' _ ha => hf a ha w'

theorem imp (h : NoDiv m P) (hPQ : ∀ a, P a → Q a) : NoDiv m Q :=
  fun w => (h w).imp fun a _ => hPQ a

/-- The first program returns something. -/
theorem seq {f : α → Prog β} {R : β → Prop} (hm : NoDiv m fun _ => True)
    (hf : ∀ a, NoDiv (f a) R) : NoDiv (m >>= f) R :=
  hm.bind fun a _ => hf a

theorem forUp {body : Nat → α → Prog α} {n i : Nat} {a : α}
    (hbody : ∀ i a, NoDiv (body i a) fun _ => True) :
    NoDiv (Prog.forUp body n i a) fun _ => True := by
  induction n generalizing i a with
  | zero => exact pure trivial
  | succ n ih => exact (hbody i a).seq fun _ => ih

end NoDiv

/-! ## Memory -/

theorem noDiv_deref {heap : Heap α} {p : Option Ptr} : NoDiv (deref heap p) fun _ => True := by
  unfold deref
  split
  · exact .fault nofun
  · split
    · exact .fault nofun
    · exact .pure trivial

theorem noDiv_assign {heap : Heap α} {p : Option Ptr} {f : α → α} :
    NoDiv (assign heap p f) fun _ => True := by
  unfold assign
  split
  · exact .fault nofun
  · split
    · exact .fault nofun
    · exact .pure trivial

theorem noDiv_load {b : Block α} {i : Nat} : NoDiv (b.load i) fun a => a ∈ b.cells := by
  unfold Block.load
  split
  · exact .fault nofun
  · exact .fault nofun
  · rename_i h
    exact .pure (List.mem_of_getElem? h)

theorem noDiv_store {b : Block α} {i : Nat} {v : α} : NoDiv (b.store i v) fun _ => True := by
  unfold Block.store
  split
  · exact .fault nofun
  · split
    · exact .pure trivial
    · exact .fault nofun

theorem noDiv_loadWritten {b : Block (Option α)} {i : Nat} :
    NoDiv (b.loadWritten i) fun _ => True := by
  refine .seq (noDiv_load.imp fun _ _ => trivial) fun a => ?_
  cases a with
  | none => exact .fault nofun
  | some a => exact .pure trivial

theorem noDiv_written {field : Option α} : NoDiv (written field) fun _ => True := by
  cases field with
  | none => exact .fault nofun
  | some a => exact .pure trivial

theorem noDiv_memcpy {p : Ptr} {src : Bytes} {n : Nat} :
    NoDiv (memcpy p src n) fun _ => True := by
  unfold memcpy
  split
  · exact .pure trivial
  · exact .fault nofun

theorem noDiv_record {e : Event} : NoDiv (record e) fun _ => True := fun _ => trivial

theorem noDiv_walkBound : NoDiv walkBound fun _ => True := fun _ => trivial

theorem noDiv_free {p : Option Ptr} : NoDiv (free p) fun _ => True :=
  fun _ => runs_free fun _ _ _ => trivial

theorem noDiv_xallocAlign : NoDiv xallocAlign fun _ => True :=
  fun _ => runs_xallocAlign (fun _ _ _ _ _ _ => trivial) fun _ _ _ _ _ => trivial

theorem noDiv_malloc : NoDiv malloc fun _ => True :=
  fun _ => runs_malloc (fun _ _ _ _ => trivial) fun _ _ _ _ _ => trivial

theorem noDiv_lockInit : NoDiv lhiPthreadLockInit fun _ => True :=
  fun _ => runs_lhiPthreadLockInit (fun _ _ _ _ => trivial) fun _ _ _ _ => trivial

theorem noDiv_lockDestroy {l : LockName} : NoDiv (lhiPthreadLockDestroy l) fun _ => True :=
  fun _ => runs_lockDestroy fun _ _ _ _ _ _ => trivial

theorem noDiv_realloc {old : Option Ptr} : NoDiv (realloc old) fun _ => True := by
  refine noDiv_malloc.seq fun r => ?_
  cases r with
  | none => exact .pure trivial
  | some fresh => exact noDiv_free.seq fun _ => .pure trivial

theorem noDiv_sizeDiv {a b : Nat} (h : b ≠ 0) : NoDiv (sizeDiv a b) fun _ => True := by
  rw [sizeDiv, if_neg h]
  exact .pure trivial

/-- The only division by the size of the table that the engines make. -/
theorem noDiv_bucketOf {h : HiHandle δ} {key : Bytes} {keylen : UInt32} (hu : h.tableSize ≠ 0) :
    NoDiv (h.bucketOf key keylen) fun _ => True := by
  rw [HiHandle.bucketOf, umod, if_neg hu]
  exact .pure trivial

theorem noDiv_hash2 {h : HiHandle δ} {key : Bytes} {keylen : UInt32} :
    NoDiv (h.hash2 key keylen) fun _ => True := by
  unfold HiHandle.hash2
  split
  · exact .fault nofun
  · exact .pure trivial

/-! ## The list engines -/

section List

variable {h : HiHandle δ} {key : Bytes} {keylen : UInt32} {hit : HiBucketHlObj δ → Bool}
  {bucket : Nat}

theorem noDiv_seek {objs : Heap (HiBucketHlObj δ)} {fuel : Nat} {p bObj : Option Ptr} :
    NoDiv (seek objs hit fuel p bObj) fun _ => True := by
  induction fuel generalizing p bObj with
  | zero => exact .fault nofun
  | succ fuel ih =>
    cases bObj with
    | none => exact .pure trivial
    | some bObj =>
      refine noDiv_deref.seq fun obj => ?_
      split
      · exact .pure trivial
      · exact ih

theorem noDiv_seekBucket : NoDiv (h.seekBucket bucket hit) fun _ => True :=
  .bind noDiv_load fun _ _ => noDiv_walkBound.seq fun _ => noDiv_seek

theorem noDiv_seekStatus {hit : HiBucketHlObj δ → Bool} : NoDiv (do
    match ← h.seekBucket bucket hit with
    | some _ => pure success
    | none => pure hiErrNokey) fun _ => True :=
  noDiv_seekBucket.seq fun r => by cases r <;> exact .pure trivial

theorem noDiv_lhiLookupList (hu : h.tableSize ≠ 0) :
    NoDiv (lhiLookupList h key keylen) fun _ => True := by
  refine (noDiv_bucketOf hu).seq fun bucket => ?_
  split
  · exact noDiv_seekStatus
  · exact noDiv_seekStatus
  · exact noDiv_hash2.seq fun _ => noDiv_seekStatus
  · exact noDiv_hash2.seq fun _ => noDiv_seekStatus
  · exact .pure trivial

theorem noDiv_unlinkObj {p next : Option Ptr} {bObj : Ptr} :
    NoDiv (h.unlinkObj bucket p bObj next) fun h' => h'.toUserSettings = h.toUserSettings := by
  unfold HiHandle.unlinkObj
  split
  · exact noDiv_store.seq fun _ => .pure rfl
  · exact noDiv_assign.seq fun _ => .pure rfl

theorem noDiv_removeHit :
    NoDiv (h.removeHit bucket hit) fun r => r.2.toUserSettings = h.toUserSettings := by
  refine noDiv_seekBucket.seq fun r => ?_
  cases r with
  | none => exact noDiv_record.seq fun _ => .pure rfl
  | some r =>
    refine noDiv_deref.seq fun obj => noDiv_unlinkObj.bind fun h' hu' => ?_
    exact noDiv_free.seq fun _ => noDiv_free.seq fun _ => .bind noDiv_load fun _ _ =>
      noDiv_store.seq fun _ => noDiv_record.seq fun _ => .pure hu'

theorem noDiv_lhiRemoveList (hu : h.tableSize ≠ 0) :
    NoDiv (lhiRemoveList h key keylen) fun r => r.2.toUserSettings = h.toUserSettings := by
  refine noDiv_record.seq fun _ => (noDiv_bucketOf hu).seq fun bucket => ?_
  split
  · exact noDiv_removeHit
  · exact noDiv_removeHit
  · exact noDiv_hash2.seq fun _ => noDiv_removeHit
  · exact noDiv_hash2.seq fun _ => noDiv_removeHit
  · exact noDiv_record.seq fun _ => .pure rfl

theorem noDiv_getHit : NoDiv (h.getHit bucket hit) fun _ => True := by
  refine noDiv_seekBucket.seq fun r => ?_
  cases r with
  | none => exact noDiv_record.seq fun _ => .pure trivial
  | some r => exact noDiv_deref.seq fun _ => noDiv_record.seq fun _ => .pure trivial

theorem noDiv_moveToFront {p next : Option Ptr} {bObj : Ptr} :
    NoDiv (h.moveToFront bucket p bObj next) fun h' => h'.toUserSettings = h.toUserSettings :=
  noDiv_assign.seq fun _ => .bind noDiv_load fun _ _ => noDiv_assign.seq fun _ =>
    noDiv_store.seq fun _ => .pure rfl

theorem noDiv_getHitMtf :
    NoDiv (h.getHitMtf bucket hit) fun r => r.2.toUserSettings = h.toUserSettings := by
  refine noDiv_seekBucket.seq fun r => ?_
  cases r with
  | none => exact noDiv_record.seq fun _ => .pure rfl
  | some r =>
    obtain ⟨p, bObj⟩ := r
    refine noDiv_deref.seq fun obj => ?_
    dsimp only
    split
    · exact noDiv_moveToFront.bind fun h' hu' => noDiv_record.seq fun _ => .pure hu'
    · refine NoDiv.bind (P := (· = h)) (.pure rfl) fun h' hh => ?_
      subst hh
      exact noDiv_record.seq fun _ => .pure rfl

theorem noDiv_lhiGetList (hu : h.tableSize ≠ 0) :
    NoDiv (lhiGetList h key keylen) fun r => r.2.toUserSettings = h.toUserSettings := by
  refine (noDiv_bucketOf hu).seq fun bucket => ?_
  split
  · exact noDiv_record.seq fun _ => noDiv_getHit.seq fun _ => .pure rfl
  · exact noDiv_getHitMtf
  · exact noDiv_record.seq fun _ => noDiv_hash2.seq fun _ => noDiv_getHit.seq fun _ => .pure rfl
  · exact noDiv_record.seq fun _ => noDiv_hash2.seq fun _ => noDiv_getHitMtf
  · exact .pure rfl

theorem noDiv_lhiInsertList {data : δ} (hu : h.tableSize ≠ 0) :
    NoDiv (lhiInsertList h key keylen data) fun r => r.2.toUserSettings = h.toUserSettings := by
  refine noDiv_record.seq fun _ => (noDiv_bucketOf hu).seq fun bucket =>
    noDiv_xallocAlign.seq fun obj => ?_
  cases obj with
  | error ret => exact noDiv_record.seq fun _ => .pure rfl
  | ok obj =>
    refine noDiv_xallocAlign.seq fun dupkey => ?_
    cases dupkey with
    | error ret => exact noDiv_free.seq fun _ => noDiv_record.seq fun _ => .pure rfl
    | ok dupkey =>
      exact noDiv_memcpy.seq fun _ => .bind noDiv_load fun _ _ => noDiv_store.seq fun _ =>
        .bind noDiv_load fun _ _ => noDiv_store.seq fun _ => noDiv_record.seq fun _ => .pure rfl

theorem noDiv_freeChain {fuel : Nat} {objs : Heap (HiBucketHlObj δ)} {v : Option Ptr} :
    NoDiv (freeChain fuel objs v) fun _ => True := by
  induction fuel generalizing objs v with
  | zero => exact .fault nofun
  | succ fuel ih =>
    cases v with
    | none => exact .pure trivial
    | some v =>
      exact noDiv_deref.seq fun _ => noDiv_free.seq fun _ => noDiv_free.seq fun _ => ih

theorem noDiv_lhiFiniList : NoDiv (lhiFiniList h) fun _ => True := by
  unfold lhiFiniList
  refine noDiv_walkBound.seq fun fuel => NoDiv.seq ?_ fun objs => ?_
  · exact .forUp fun i objs => .bind noDiv_load fun _ _ => noDiv_freeChain
  · exact noDiv_free.seq fun _ => .pure trivial

theorem noDiv_lhiCreateEngList : NoDiv (lhiCreateEngList h) fun r =>
    ∀ h', r = .ok h' → h'.toUserSettings = h.toUserSettings := by
  refine noDiv_xallocAlign.seq fun r => ?_
  cases r with
  | error e => exact .pure (by simp)
  | ok table => exact .pure (by simp only [Except.ok.injEq, forall_eq'])

end List

/-! ## The tree library -/

/-- The functions on pointers do not divide. -/
def NoDivPure (x : Except Fault α) : Prop := x ≠ .error .divByZero

namespace NoDivPure

theorem ok {a : α} : NoDivPure (.ok a) := nofun

theorem error {e : Fault} (h : e ≠ .divByZero) : NoDivPure (.error e : Except Fault α) :=
  fun he => h (Except.error.inj he)

theorem bind {x : Except Fault α} {f : α → Except Fault β} (hx : NoDivPure x)
    (hf : ∀ a, NoDivPure (f a)) : NoDivPure (x >>= f) := by
  cases x with
  | error e => exact error fun he => hx (he ▸ rfl)
  | ok a => exact hf a

end NoDivPure

section TreeLibrary

variable {s : RbRoot} {p v : Option Ptr} {d : Side} {c : Color} {fuel : Nat}

theorem noDiv_read : NoDivPure (s.read p) := by
  unfold RbRoot.read
  split
  · exact .error nofun
  · split
    · exact .error nofun
    · exact .ok

theorem noDiv_modify {f : RbNode → RbNode} : NoDivPure (s.modify p f) := by
  unfold RbRoot.modify
  split
  · exact .error nofun
  · split
    · exact .error nofun
    · exact .ok

theorem noDiv_setParent : NoDivPure (s.setParent p v) := noDiv_modify

theorem noDiv_setColor : NoDivPure (s.setColor p c) := noDiv_modify

theorem noDiv_setChild : NoDivPure (s.setChild p d v) := noDiv_modify

theorem noDiv_setParentIf : NoDivPure (s.setParentIf p v) := by
  cases p with
  | none => exact .ok
  | some p => exact noDiv_setParent

theorem noDiv_setBlackIf : NoDivPure (s.setBlackIf p) := by
  cases p with
  | none => exact .ok
  | some p => exact noDiv_setColor

theorem noDiv_isBlack : NoDivPure (s.isBlack p) := by
  cases p with
  | none => exact .ok
  | some p => exact noDiv_read.bind fun _ => .ok

theorem noDiv_relink {old : Ptr} : NoDivPure (s.relink p d old v) := by
  cases p with
  | none => exact .ok
  | some p =>
    refine noDiv_read.bind fun n => ?_
    split
    · exact noDiv_setChild
    · exact noDiv_setChild

theorem noDiv_rbRotate : NoDivPure (rbRotate d s p) := by
  refine noDiv_read.bind fun n => noDiv_read.bind fun r => noDiv_setChild.bind fun _ =>
    noDiv_setParentIf.bind fun _ => noDiv_setChild.bind fun _ => noDiv_setParent.bind fun _ => ?_
  cases p with
  | none =>
    have hnull : NoDivPure (.error .nullDeref : Except Fault RbRoot) := .error nofun
    exact hnull.bind fun _ => noDiv_setParent
  | some x => exact noDiv_relink.bind fun _ => noDiv_setParent

theorem noDiv_rbLinkNode {node : Ptr} {link : RbLink} : NoDivPure (rbLinkNode s node p link) := by
  cases link with
  | root => exact .ok
  | child p d => exact noDiv_setChild

theorem noDiv_rbInsertRotate {node parent gparent : Ptr} :
    NoDivPure (rbInsertRotate d s node parent gparent) := by
  refine noDiv_read.bind fun n => ?_
  have hrest : ∀ x : RbRoot × Ptr × Ptr, NoDivPure (do
      let s ← x.1.setColor (some x.2.2) .black
      let s ← s.setColor (some gparent) .red
      let s ← rbRotate d.flip s (some gparent)
      pure (s, x.2.1)) := fun x =>
    noDiv_modify.bind fun _ => noDiv_modify.bind fun _ => noDiv_rbRotate.bind fun _ => .ok
  dsimp only
  split
  · exact noDiv_rbRotate.bind fun s => hrest (s, parent, node)
  · exact hrest (s, node, parent)

theorem noDiv_rbInsertColor {node : Ptr} : NoDivPure (rbInsertColor fuel s node) := by
  have hloop : ∀ fuel s node, NoDivPure (rbInsertColorLoop fuel s node) := by
    intro fuel
    induction fuel with
    | zero => exact fun _ _ => .error nofun
    | succ fuel ih =>
      intro s node
      refine noDiv_read.bind fun n => ?_
      split
      · exact .ok
      refine noDiv_read.bind fun p => ?_
      split
      · exact .ok
      split
      · exact .error nofun
      refine noDiv_read.bind fun g => noDiv_isBlack.bind fun b => ?_
      cases b with
      | true => exact noDiv_rbInsertRotate.bind fun _ => ih _ _
      | false =>
        exact noDiv_modify.bind fun _ => noDiv_modify.bind fun _ => noDiv_modify.bind fun _ => ih _ _
  exact (hloop _ _ _).bind fun _ => noDiv_modify

theorem noDiv_rbEraseFar {other parent : Option Ptr} : NoDivPure (rbEraseFar d s other parent) :=
  noDiv_read.bind fun _ => noDiv_modify.bind fun _ => noDiv_modify.bind fun _ =>
    noDiv_read.bind fun _ => noDiv_setBlackIf.bind fun _ => noDiv_rbRotate

theorem noDiv_rbEraseRotate {other parent : Option Ptr} :
    NoDivPure (rbEraseRotate d s other parent) := by
  refine noDiv_read.bind fun o => noDiv_isBlack.bind fun b => ?_
  cases b with
  | true =>
    exact noDiv_setBlackIf.bind fun _ => noDiv_modify.bind fun _ => noDiv_rbRotate.bind fun _ =>
      noDiv_read.bind fun _ => noDiv_rbEraseFar
  | false => exact noDiv_rbEraseFar

theorem noDiv_rbEraseSibling {other parent : Option Ptr} :
    NoDivPure (rbEraseSibling d s other parent) := by
  refine noDiv_read.bind fun o => ?_
  split
  · exact noDiv_modify.bind fun _ => noDiv_modify.bind fun _ => noDiv_rbRotate.bind fun _ =>
      noDiv_read.bind fun _ => .ok
  · exact .ok

theorem noDiv_rbEraseColor {node parent : Option Ptr} :
    NoDivPure (rbEraseColor fuel s node parent) := by
  have hloop : ∀ fuel s node parent, NoDivPure (rbEraseColorLoop fuel s node parent) := by
    intro fuel
    induction fuel with
    | zero => exact fun _ _ _ => .error nofun
    | succ fuel ih =>
      intro s node parent
      refine noDiv_isBlack.bind fun b => ?_
      split
      · refine noDiv_read.bind fun p => noDiv_rbEraseSibling.bind fun x => noDiv_read.bind fun o =>
          noDiv_isBlack.bind fun b₁ => noDiv_isBlack.bind fun b₂ => ?_
        split
        · exact noDiv_modify.bind fun _ => noDiv_read.bind fun _ => ih _ _ _
        · exact noDiv_rbEraseRotate.bind fun _ => .ok
      · exact .ok
  exact (hloop _ _ _ _).bind fun _ => noDiv_setBlackIf

theorem noDiv_rbLeftmost {node : Ptr} : NoDivPure (rbLeftmost fuel s node) := by
  induction fuel generalizing node with
  | zero => exact .error nofun
  | succ fuel ih =>
    refine noDiv_read.bind fun n => ?_
    split
    · exact .ok
    · exact ih

theorem noDiv_rbUnlinkSuccessor {old node : Ptr} {parent child : Option Ptr} :
    NoDivPure (rbUnlinkSuccessor s old node parent child) := by
  unfold rbUnlinkSuccessor
  split
  · exact noDiv_modify.bind fun _ => .ok
  · exact noDiv_modify.bind fun _ => .ok

theorem noDiv_rbEraseTwo {old : Ptr} : NoDivPure (rbEraseTwo fuel s old) := by
  refine noDiv_read.bind fun o => ?_
  dsimp only
  split
  · have hnull : NoDivPure (.error .nullDeref : Except Fault RbRoot) := .error nofun
    exact hnull
  · refine noDiv_rbLeftmost.bind fun node => noDiv_read.bind fun n =>
      noDiv_setParentIf.bind fun _ => noDiv_rbUnlinkSuccessor.bind fun x => noDiv_read.bind fun o =>
      noDiv_modify.bind fun _ => noDiv_relink.bind fun _ => noDiv_setParent.bind fun _ =>
      noDiv_setParentIf.bind fun _ => ?_
    split
    · exact noDiv_rbEraseColor
    · exact .ok

theorem noDiv_rbEraseOne {node : Ptr} {child : Option Ptr} :
    NoDivPure (rbEraseOne fuel s node child) := by
  refine noDiv_read.bind fun n => noDiv_setParentIf.bind fun _ => noDiv_relink.bind fun _ => ?_
  split
  · exact noDiv_rbEraseColor
  · exact .ok

theorem noDiv_rbErase {node : Ptr} : NoDivPure (rbErase fuel s node) := by
  refine noDiv_read.bind fun n => ?_
  split
  · exact noDiv_rbEraseOne
  · exact noDiv_rbEraseOne
  · exact noDiv_rbEraseTwo

end TreeLibrary

/-! ## The tree engine -/

section Rbtree

variable {h : HiHandle δ} {key : Bytes} {keylen : UInt32} {tree : Nat}

theorem noDiv_ofExcept {x : Except Fault α} (hx : NoDivPure x) :
    NoDiv (Prog.ofExcept x) fun _ => True := by
  intro w
  cases x with
  | error e => exact fun he => hx (he ▸ rfl)
  | ok a => exact trivial

theorem noDiv_rbDescend {fuel : Nat} {p parent : Option Ptr} {link : RbLink} :
    NoDiv (rbDescend h key fuel p parent link) fun _ => True := by
  induction fuel generalizing p parent link with
  | zero => exact .fault nofun
  | succ fuel ih =>
    cases p with
    | none => exact .pure trivial
    | some p =>
      refine noDiv_deref.seq fun e => ?_
      dsimp only
      split
      · exact .pure trivial
      · refine noDiv_deref.seq fun n => ?_
        split
        · exact ih
        · exact ih

theorem noDiv_descend : NoDiv (h.descend tree key) fun _ => True :=
  .bind noDiv_load fun _ _ => noDiv_walkBound.seq fun _ => noDiv_rbDescend

theorem noDiv_onTree {f : RbRoot → Except Fault RbRoot} (hf : ∀ s, NoDivPure (f s)) :
    NoDiv (h.onTree tree f) fun h' => h'.toUserSettings = h.toUserSettings :=
  .bind noDiv_load fun _ _ => (noDiv_ofExcept (hf _)).seq fun _ => noDiv_store.seq fun _ =>
    .pure rfl

theorem noDiv_lhiGetRbtree (hu : h.tableSize ≠ 0) :
    NoDiv (lhiGetRbtree h key keylen) fun _ => True := by
  refine (noDiv_bucketOf hu).seq fun tree => .bind noDiv_load fun t _ => .bind noDiv_load fun t _ =>
    noDiv_record.seq fun _ => noDiv_walkBound.seq fun _ => noDiv_rbDescend.seq fun r => ?_
  cases r with
  | found p => exact noDiv_deref.seq fun _ => noDiv_record.seq fun _ => .pure trivial
  | missing parent link => exact noDiv_record.seq fun _ => .pure trivial

theorem noDiv_lhiRemoveRbtree (hu : h.tableSize ≠ 0) :
    NoDiv (lhiRemoveRbtree h key keylen) fun r => r.2.toUserSettings = h.toUserSettings := by
  refine .bind (P := fun r => r.2.toUserSettings = h.toUserSettings) ?_ fun r hu' => ?_
  · refine (noDiv_bucketOf hu).seq fun tree => .bind noDiv_load fun t _ => noDiv_record.seq fun _ =>
      noDiv_descend.seq fun r => ?_
    cases r with
    | found p =>
      refine noDiv_deref.seq fun e => noDiv_walkBound.seq fun fuel =>
        (noDiv_onTree fun _ => noDiv_rbErase).bind fun h' hu' => ?_
      exact noDiv_free.seq fun _ => noDiv_free.seq fun _ => .bind noDiv_load fun _ _ =>
        noDiv_store.seq fun _ => noDiv_record.seq fun _ => .pure hu'
    | missing parent link => exact noDiv_record.seq fun _ => .pure rfl
  · obtain ⟨r, h'⟩ := r
    dsimp only at hu' ⊢
    split
    · exact .bind (P := fun h'' => h''.toUserSettings = h.toUserSettings)
        (noDiv_record.seq fun _ => noDiv_record.seq fun _ => .pure hu') fun _ hu'' => .pure hu''
    · exact .pure hu'

theorem noDiv_lhiRbEntryNew {data : δ} : NoDiv (lhiRbEntryNew key data keylen) fun _ => True := by
  refine noDiv_malloc.seq fun node => ?_
  cases node with
  | none => exact .pure trivial
  | some node =>
    refine noDiv_malloc.seq fun dupkey => ?_
    cases dupkey with
    | none => exact noDiv_free.seq fun _ => .pure trivial
    | some dupkey => exact noDiv_memcpy.seq fun _ => .pure trivial

theorem noDiv_lhiInsertRbtree {data : δ} (hu : h.tableSize ≠ 0) :
    NoDiv (lhiInsertRbtree h key keylen data) fun r => r.2.toUserSettings = h.toUserSettings := by
  refine .bind (P := fun r => r.2.toUserSettings = h.toUserSettings) ?_ fun r hu' => ?_
  · refine (noDiv_bucketOf hu).seq fun tree => .bind noDiv_load fun t _ => noDiv_record.seq fun _ =>
      noDiv_descend.seq fun r => ?_
    cases r with
    | found p => exact noDiv_record.seq fun _ => .pure rfl
    | missing parent link =>
      refine noDiv_lhiRbEntryNew.seq fun e => ?_
      cases e with
      | none => exact noDiv_record.seq fun _ => .pure rfl
      | some e =>
        refine noDiv_walkBound.seq fun fuel => (noDiv_onTree fun _ =>
          noDiv_rbLinkNode.bind fun _ => noDiv_rbInsertColor).bind fun h' hu' => ?_
        exact .bind noDiv_load fun _ _ => noDiv_store.seq fun _ => noDiv_record.seq fun _ =>
          .pure hu'
  · obtain ⟨ret, h'⟩ := r
    dsimp only at hu' ⊢
    split
    · exact .bind (P := fun h'' => h''.toUserSettings = h.toUserSettings)
        (noDiv_record.seq fun _ => noDiv_record.seq fun _ => .pure hu') fun _ hu'' => .pure hu''
    · exact .pure hu'

theorem noDiv_lhiFiniRbtree : NoDiv (lhiFiniRbtree h) fun _ => True := by
  unfold lhiFiniRbtree
  refine NoDiv.seq ?_ fun _ => ?_
  · exact .forUp fun i _ => .bind noDiv_load fun _ _ => noDiv_record.seq fun _ =>
      noDiv_record.seq fun _ => noDiv_lockDestroy.seq fun _ => .pure trivial
  · exact noDiv_free.seq fun _ => .pure trivial

theorem noDiv_lhiCreateEngRbtree : NoDiv (lhiCreateEngRbtree h) fun r =>
    ∀ h', r = .ok h' → h'.toUserSettings = h.toUserSettings := by
  have hdestroy : ∀ trees : List HiRbTree, NoDiv (trees.forM fun t => do
      let _ ← lhiPthreadRwlockDestroy t.rwlock
      pure ()) fun _ => True := by
    intro trees
    induction trees with
    | nil => exact .pure trivial
    | cons t trees ih => exact (noDiv_lockDestroy.seq fun _ => .pure trivial).seq fun _ => ih
  have hinit : ∀ n trees, NoDiv (initTrees n trees) fun _ => True := by
    intro n
    induction n with
    | zero => exact fun _ => .pure trivial
    | succ n ih =>
      intro trees
      refine noDiv_lockInit.seq fun r => ?_
      cases r with
      | error e => exact (hdestroy _).seq fun _ => .pure trivial
      | ok lock => exact ih _
  refine noDiv_malloc.seq fun trees => ?_
  cases trees with
  | none => exact .pure (by simp)
  | some trees =>
    refine noDiv_record.seq fun _ => (hinit _ _).seq fun r => ?_
    cases r with
    | error e => exact .pure (by simp)
    | ok cells =>
      exact noDiv_record.seq fun _ => .pure (by simp only [Except.ok.injEq, forall_eq'])

end Rbtree

/-! ## The array engine -/

section Array

variable {h : HiHandle δ} {key : Bytes} {keylen : UInt32} {bucket : Nat}

theorem noDiv_slot {i : Nat} : NoDiv (h.slot bucket i) fun _ => True :=
  .bind noDiv_load fun _ _ => noDiv_load.imp fun _ _ => trivial

theorem noDiv_setSlot {i : Nat} {slot : HiBucketAObj δ} :
    NoDiv (h.setSlot bucket i slot) fun h' => h'.toUserSettings = h.toUserSettings :=
  .bind noDiv_load fun _ _ => noDiv_store.seq fun _ => noDiv_store.seq fun _ => .pure rfl

theorem noDiv_scanBucket : NoDiv (h.scanBucket bucket key) fun _ => True := by
  have hscan : ∀ size n i seen, NoDiv (scan h bucket size key n i seen) fun _ => True := by
    intro size n
    induction n with
    | zero => exact fun _ _ => .pure trivial
    | succ n ih =>
      intro i seen
      rw [scan]
      split
      · exact .pure trivial
      refine noDiv_slot.seq fun slot => noDiv_written.seq fun a => ?_
      cases a with
      | baNotAllocated => exact ih _ _
      | baAllocated =>
        refine noDiv_written.seq fun e => ?_
        split
        · exact .pure trivial
        · exact ih _ _
  exact .bind noDiv_load fun _ _ => .bind noDiv_load fun _ _ => hscan _ _ _ _

theorem noDiv_lhiGetArray (hu : h.tableSize ≠ 0) :
    NoDiv (lhiGetArray h key keylen) fun _ => True := by
  refine (noDiv_bucketOf hu).seq fun bucket => ?_
  split
  · refine noDiv_record.seq fun _ => noDiv_scanBucket.seq fun r => ?_
    cases r <;> exact noDiv_record.seq fun _ => .pure trivial
  all_goals exact .pure trivial

theorem noDiv_lhiRemoveArray (hu : h.tableSize ≠ 0) :
    NoDiv (lhiRemoveArray h key keylen) fun r => r.2.toUserSettings = h.toUserSettings := by
  refine (noDiv_bucketOf hu).seq fun bucket => ?_
  split
  · refine noDiv_record.seq fun _ => noDiv_scanBucket.seq fun r => ?_
    cases r with
    | none => exact noDiv_record.seq fun _ => .pure rfl
    | some r =>
      refine noDiv_free.seq fun _ => noDiv_slot.seq fun slot => noDiv_setSlot.bind fun h' hu' => ?_
      exact .bind noDiv_load fun _ _ => noDiv_store.seq fun _ => noDiv_record.seq fun _ => .pure hu'
  · exact .pure rfl

theorem noDiv_growBucket :
    NoDiv (h.growBucket bucket) fun r => r.1.toUserSettings = h.toUserSettings := by
  refine .bind noDiv_load fun size _ => .bind noDiv_load fun max _ => ?_
  split
  · refine noDiv_store.seq fun _ => .bind noDiv_load fun slots _ => ?_
    have hrealloc : ∀ n, NoDiv (reallocSlots slots n) fun _ => True := fun n =>
      noDiv_realloc.seq fun r => by cases r <;> exact .pure trivial
    refine (hrealloc _).seq fun r => ?_
    cases r <;> exact noDiv_store.seq fun _ => .pure rfl
  · exact .pure rfl

theorem noDiv_firstFree {n i : Nat} : NoDiv (firstFree h bucket n i) fun _ => True := by
  induction n generalizing i with
  | zero => exact .pure trivial
  | succ n ih =>
    refine noDiv_slot.seq fun slot => noDiv_written.seq fun a => ?_
    cases a with
    | baNotAllocated => exact .pure trivial
    | baAllocated => exact ih

theorem noDiv_lhiInsertArray {data : δ} (hu : h.tableSize ≠ 0) :
    NoDiv (lhiInsertArray h key keylen data) fun r => r.2.toUserSettings = h.toUserSettings := by
  refine (noDiv_bucketOf hu).seq fun bucket => (noDiv_lhiGetArray hu).seq fun found => ?_
  split
  · exact .pure rfl
  refine noDiv_record.seq fun _ => noDiv_growBucket.bind fun r hu' => ?_
  obtain ⟨h', grown⟩ := r
  dsimp only at hu' ⊢
  split
  · exact noDiv_record.seq fun _ => .pure hu'
  refine .bind noDiv_load fun max _ => noDiv_firstFree.seq fun i => ?_
  cases i with
  | none => exact noDiv_record.seq fun _ => .pure hu'
  | some i =>
    refine noDiv_xallocAlign.seq fun r => ?_
    cases r with
    | error e => exact .pure hu'
    | ok dupkey =>
      refine noDiv_memcpy.seq fun _ => noDiv_setSlot.bind fun h₁ hu₁ => ?_
      exact .bind noDiv_load fun _ _ => noDiv_store.seq fun _ => noDiv_record.seq fun _ =>
        .pure (hu₁.trans hu')

theorem noDiv_lhiFiniArray : NoDiv (lhiFiniArray h) fun _ => True := by
  have hslots : ∀ n i bucket, NoDiv (freeSlots h bucket n i) fun _ => True := by
    intro n
    induction n with
    | zero => exact fun _ _ => .pure trivial
    | succ n ih =>
      intro i bucket
      refine noDiv_slot.seq fun slot => noDiv_written.seq fun a => ?_
      cases a with
      | baNotAllocated => exact ih _ _
      | baAllocated => exact noDiv_written.seq fun _ => noDiv_free.seq fun _ => ih _ _
  unfold lhiFiniArray
  refine noDiv_record.seq fun _ => NoDiv.seq ?_ fun _ => ?_
  · exact .forUp fun i _ => .bind noDiv_load fun _ _ => (hslots _ _ _).seq fun _ =>
      .bind noDiv_load fun _ _ => noDiv_free
  · exact noDiv_free.seq fun _ => noDiv_free.seq fun _ => noDiv_free.seq fun _ =>
      noDiv_record.seq fun _ => .pure trivial

theorem noDiv_lhiCreateEngArray : NoDiv (lhiCreateEngArray h) fun r =>
    ∀ h', r = .ok h' → h'.toUserSettings = h.toUserSettings := by
  have hinit : ∀ slots n (buckets : List (Block (HiBucketAObj δ))),
      NoDiv (initBuckets slots n buckets) fun _ => True := by
    intro slots n
    induction n with
    | zero => exact fun _ => .pure trivial
    | succ n ih =>
      intro buckets
      refine noDiv_xallocAlign.seq fun r => ?_
      cases r with
      | error e => exact .pure trivial
      | ok fresh => exact ih _
  refine noDiv_xallocAlign.seq fun r₁ => ?_
  cases r₁ with
  | error e => exact .pure (by simp)
  | ok slotSize =>
  refine noDiv_xallocAlign.seq fun r₂ => ?_
  cases r₂ with
  | error e => exact .pure (by simp)
  | ok slotMax =>
  refine noDiv_xallocAlign.seq fun r₃ => ?_
  cases r₃ with
  | error e => exact .pure (by simp)
  | ok array =>
  refine (hinit _ _ _).seq fun r₄ => ?_
  cases r₄ with
  | error e => exact .pure (by simp)
  | ok buckets => exact .pure (by simp only [Except.ok.injEq, forall_eq'])

end Array

end Hashish
