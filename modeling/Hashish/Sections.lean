import Hashish.Lib.Interleaving
import Hashish.MapMachine

/-!
# The sections of a call

With threads a call is not atomic. What it does while it holds the mutex of the handle, or
the lock of a tree, is; other clients may run between two such sections, and between the
section of `hi_get` in a tree and the read of the root before it. `Stage` says where a call
stands, and `Stage.advance` is its next section.

* `alone_op`: the sections of a call, one after the other, are the call.
* `Stage.advance_next`: a section leads to a stage of its call that is nearer to the end.
-/

namespace Hashish

open Hashish.Lib

variable {δ : Type}

/-! ## Stages -/

/-- Where a call stands between two sections. -/
inductive Stage (δ : Type)
  /-- At its start. -/
  | start (op : MapOp δ)
  /-- In `lhi_get_rbtree`: the root of the tree was read, the lock is not yet taken. -/
  | seek (tree : Nat) (root : Option Ptr) (k : Key)
  /-- In `hi_insert`: `hi_lookup` has not found the key. -/
  | rehash (k : Key) (d : δ)
  /-- In `hi_insert`: `do_rehash` has returned. -/
  | insert (k : Key) (d : δ)
  /-- In `lhi_insert_array`: `lhi_get_array` has not found the key. -/
  | fill (bucket : Nat) (k : Key) (d : δ)
  /-- In `lhi_insert_rbtree`: the node is in the tree. -/
  | count
  /-- In `lhi_remove_rbtree`: the node has left the tree, and `r` is to be returned. -/
  | uncount (r : Result δ)

/-- The next section of a call, with the stage it leads to or what the call returns. Two sections
are coarser than the source: a rehash is one, and so is `hi_get` with `COLL_ENG_LIST_MTF`, which takes
no lock. -/
def Stage.advance (st : Stage δ) (h : HiHandle δ) :
    Prog ((Stage δ ⊕ Result δ) × HiHandle δ) :=
  match st with
  | start (.insert k d) => do
    let found ← hiLookup h k.bytes k.keylen
    if found = success then pure (.inr ⟨hiErrDupkey, none⟩, h) else pure (.inl (rehash k d), h)
  | start (.get k) =>
    match h.collEng with
    | .rbtree => do
      let tree ← h.bucketOf k.bytes k.keylen
      let t ← h.trees.load tree
      pure (.inl (seek tree t.rbNode k), h)
    | _ => do
      let (r, h) ← hiGet h k.bytes k.keylen
      pure (.inr r, h)
  | seek tree root k => do
    let r ← lhiGetRbtreeNode h tree root k.bytes
    pure (.inr r, h)
  | start (.remove k) =>
    match h.collEng with
    | .rbtree => do
      let (r, h) ← lhiRemoveRbtreeNode h k.bytes k.keylen
      if r.status = success then pure (.inl (uncount r), h) else pure (.inr r, h)
    | _ => do
      let (r, h) ← hiRemove h k.bytes k.keylen
      pure (.inr r, h)
  | rehash k d => do
    let h ← doRehash hiRehash h
    pure (.inl (insert k d), h)
  | insert k d =>
    match h.collEng with
    | .rbtree => do
      let (ret, h) ← lhiInsertRbtreeNode h k.bytes k.keylen d
      if ret = success then pure (.inl count, h) else pure (.inr ⟨ret, none⟩, h)
    | .array | .arrayHash | .arrayDyn | .arrayDynHash => do
      let bucket ← h.bucketOf k.bytes k.keylen
      let found ← lhiGetArray h k.bytes k.keylen
      if found.status = success then pure (.inr ⟨hiErrDupkey, none⟩, h)
      else pure (.inl (fill bucket k d), h)
    | _ => do
      let (ret, h) ← engineInsert h k.bytes k.keylen d
      pure (.inr ⟨ret, none⟩, h)
  | fill bucket k d => do
    let (ret, h) ← lhiInsertArraySlot h bucket k.bytes k.keylen d
    pure (.inr ⟨ret, none⟩, h)
  | count => do
    let h ← h.countObject
    pure (.inr ⟨success, none⟩, h)
  | uncount r => do
    let h ← h.uncountObject
    pure (.inr r, h)

/-- The calls of a map on a handle, section by section. -/
def tableProtocol (δ : Type) :
    Protocol World Fault (HiHandle δ) (MapOp δ) (Stage δ) (Result δ) where
  start := .start
  advance := Stage.advance

/-- The root that the call has read is still the root of the tree. -/
def Stage.SeesRoot (h : HiHandle δ) : Stage δ → Prop
  | seek tree root _ => (h.trees.cells[tree]?).map HiRbTree.rbNode = some root
  | _ => True

instance (h : HiHandle δ) (st : Stage δ) : Decidable (st.SeesRoot h) :=
  match st with
  | .seek _ _ _ => inferInstanceAs (Decidable (_ = _))
  | .start _ | .rehash _ _ | .insert _ _ | .fill _ _ _ | .count | .uncount _ => isTrue trivial

/-- The stage is one of the call. -/
def Stage.Of (i : MapOp δ) : Stage δ → Prop
  | start op => op = i
  | seek _ _ k => i = .get k
  | rehash k d | insert k d | fill _ k d => i = .insert k d
  | count => ∃ k d, i = .insert k d
  | uncount _ => ∃ k, i = .remove k

/-- The sections that are left of a call, at most. -/
def Stage.rank : Stage δ → Nat
  | start _ => 4
  | rehash _ _ => 3
  | insert _ _ => 2
  | seek _ _ _ | fill _ _ _ | count | uncount _ => 1

/-! ## The next stage -/

section Next

variable {w : World} {h : HiHandle δ} {st : Stage δ}

theorem Stage.rank_pos : 0 < st.rank := by cases st <;> simp [rank]

/-- The stage `p` follows the stage `st` of a call. -/
structure Stage.Next (st : Stage δ) (h : HiHandle δ) (p : Stage δ) : Prop where
  of : ∀ i, st.Of i → p.Of i
  rank : p.rank < st.rank
  sees : p.SeesRoot h

theorem partial_load {α : Type} {b : Block α} {i : Nat} :
    Partial (b.load i) w fun a _ => b.cells[i]? = some a := by
  unfold Block.load
  split
  · trivial
  · trivial
  · assumption

theorem Stage.advance_next :
    Partial (st.advance h) w fun r _ => ∀ p, r.1 = .inl p → st.Next r.2 p := by
  have hnext : ∀ {p : Stage δ} {h' : HiHandle δ}, st.Next h' p →
      ∀ p', (Sum.inl p : Stage δ ⊕ Result δ) = .inl p' → st.Next h' p' := by
    rintro p h' hp p' ⟨⟩
    exact hp
  have hend : ∀ {q : Result δ} {h' : HiHandle δ},
      ∀ p', (Sum.inr q : Stage δ ⊕ Result δ) = .inl p' → st.Next h' p' := nofun
  cases st with
  | start op =>
    cases op with
    | insert k d =>
      refine partial_bind fun _ _ => runs_ite.mpr ⟨fun _ => hend, fun _ => hnext ?_⟩
      exact ⟨fun _ hof => hof.symm, by simp [rank], trivial⟩
    | get k =>
      unfold Stage.advance
      cases h.collEng
      case rbtree =>
        refine partial_bind fun tree _ => Runs.bind partial_load fun t _ _ hload => hnext ?_
        exact ⟨fun _ hof => hof.symm, by simp [rank], congrArg (Option.map HiRbTree.rbNode) hload⟩
      all_goals exact partial_bind fun _ _ => hend
    | remove k =>
      unfold Stage.advance
      cases h.collEng
      case rbtree =>
        refine partial_bind fun _ _ => runs_ite.mpr ⟨fun _ => hnext ?_, fun _ => hend⟩
        exact ⟨fun _ hof => ⟨k, hof.symm⟩, by simp [rank], trivial⟩
      all_goals exact partial_bind fun _ _ => hend
  | seek tree root k => exact partial_bind fun _ _ => hend
  | rehash k d => exact partial_bind fun _ _ => hnext ⟨fun _ hof => hof, by simp [rank], trivial⟩
  | insert k d =>
    unfold Stage.advance
    cases h.collEng
    case rbtree =>
      refine partial_bind fun _ _ => runs_ite.mpr ⟨fun _ => hnext ?_, fun _ => hend⟩
      exact ⟨fun _ hof => ⟨k, d, hof⟩, by simp [rank], trivial⟩
    case array | arrayHash | arrayDyn | arrayDynHash =>
      refine partial_bind fun _ _ => partial_bind fun _ _ => runs_ite.mpr ⟨fun _ => hend, fun _ => ?_⟩
      exact hnext ⟨fun _ hof => hof, by simp [rank], trivial⟩
    all_goals exact partial_bind fun _ _ => hend
  | fill b k d => exact partial_bind fun _ _ => hend
  | count => exact partial_bind fun _ _ => hend
  | uncount q => exact partial_bind fun _ _ => hend

variable {κ : Type} [DecidableEq κ] {s t : Shared World (HiHandle δ) (MapOp δ) (Stage δ) κ}
  {a : Act (MapOp δ) (Stage δ) (Result δ) κ}

/-- A call stays at stages of its own. -/
theorem Stage.of_step (hs : ∀ c i p, s.pending c = some (i, p) → p.Of i)
    (hstep : Step (tableProtocol δ) s a t) : ∀ c i p, t.pending c = some (i, p) → p.Of i := by
  intro c i p hp
  by_cases hc : c = a.client
  · subst hc
    rw [hstep.pending_self] at hp
    cases hstep with
    | call _ =>
      cases hp
      rfl
    | @go c i' p' r s' w' h hrun =>
      obtain ⟨q, hq, hp⟩ := Option.map_eq_some_iff.mp hp
      cases hp
      exact (Stage.advance_next.of_run hrun p (by simpa using hq)).of i (hs c i p' h)
  · exact hs c i p ((hstep.pending_other hc).symm.trans hp)

end Next

/-! ## The sections are the call -/

section Alone

variable {n : Nat} {h : HiHandle δ} {k : Key} {d : δ}

theorem alone_get : (tableProtocol δ).alone .nontermination (n + 2) (.start (.get k)) h =
    hiGet h k.bytes k.keylen := by
  simp only [Protocol.alone, tableProtocol, Stage.advance]
  cases he : h.collEng <;> simp only [bind_assoc, pure_bind]
  case rbtree =>
    rw [hiGet, he]
    simp only [lhiGetRbtree, bind_assoc]
  all_goals exact bind_pure _

theorem alone_remove : (tableProtocol δ).alone .nontermination (n + 2) (.start (.remove k)) h =
    hiRemove h k.bytes k.keylen := by
  simp only [Protocol.alone, tableProtocol, Stage.advance]
  cases he : h.collEng <;> simp only [bind_assoc, pure_bind]
  case rbtree =>
    rw [hiRemove, he]
    dsimp only
    rw [lhiRemoveRbtree]
    refine bind_congr fun r => ?_
    by_cases hs : r.1.status = success
    · simp only [hs, if_true, pure_bind, bind_assoc]
    · simp only [hs, if_false, pure_bind]
  all_goals exact bind_pure _

theorem alone_engineInsert : (tableProtocol δ).alone .nontermination (n + 2) (.insert k d) h = (do
    let (ret, h) ← engineInsert h k.bytes k.keylen d
    pure (⟨ret, none⟩, h)) := by
  simp only [Protocol.alone, tableProtocol, Stage.advance, engineInsert]
  cases h.collEng <;> simp only [bind_assoc, pure_bind]
  case rbtree =>
    rw [lhiInsertRbtree]
    simp only [bind_assoc]
    refine bind_congr fun r => ?_
    by_cases hs : r.1 = success
    · simp only [hs, if_true, pure_bind, bind_assoc]
    · simp only [hs, if_false, pure_bind]
  all_goals
    rw [lhiInsertArray]
    simp only [bind_assoc]
    refine bind_congr fun bucket => bind_congr fun found => ?_
    split <;> simp only [pure_bind, bind_assoc]

theorem alone_insert : (tableProtocol δ).alone .nontermination 4 (.start (.insert k d)) h =
    (MapOp.insert k d).call h := by
  rw [Protocol.alone]
  simp only [tableProtocol, Stage.advance, MapOp.call, hiInsert, hiInsertWith, bind_assoc]
  refine bind_congr fun found => ?_
  split
  · simp only [pure_bind]
  · simp only [pure_bind, bind_assoc]
    rw [Protocol.alone]
    simp only [Stage.advance, bind_assoc, pure_bind]
    exact bind_congr fun h => alone_engineInsert

/-- A call that nobody interrupts. -/
theorem alone_op (op : MapOp δ) (h : HiHandle δ) :
    (tableProtocol δ).alone .nontermination 4 ((tableProtocol δ).start op) h = op.call h := by
  cases op with
  | get k => exact alone_get
  | remove k => exact alone_remove
  | insert k d => exact alone_insert

end Alone

end Hashish
