import Hashish.EngineRuns

/-!
# Sessions

A session creates a handle and makes a run of calls on it.

* `Engine.runs_session`: a session without rehashing, on an engine that can compare all
  keys, answers as the abstract map does.
-/

namespace Hashish

open Hashish.Lib

variable {δ : Type} {w : World}

/-- Create a handle and make the calls, unless the creation fails. -/
def session (s : HiInitSet) (ops : List (MapOp δ)) :
    Prog (Except Int (List (Result δ) × HiHandle δ)) := do
  match ← hiCreate s with
  | .error e => pure (.error e)
  | .ok h => do
    let r ← Prog.calls MapOp.call ops h
    pure (.ok r)

/-- The calls on a table: those of a map, and `hi_rehash`. -/
inductive TableOp (δ : Type)
  | map (op : MapOp δ)
  | rehash (n : UInt32)

def TableOp.call (op : TableOp δ) (h : HiHandle δ) : Prog (Result δ × HiHandle δ) :=
  match op with
  | map op => op.call h
  | rehash n => do
    let (status, h) ← hiRehash h n
    pure (⟨status, none⟩, h)

/-- A session with calls of `hi_rehash`. -/
def tableSession (s : HiInitSet) (ops : List (TableOp δ)) :
    Prog (Except Int (List (Result δ) × HiHandle δ)) := do
  match ← hiCreate s with
  | .error e => pure (.error e)
  | .ok h => do
    let r ← Prog.calls TableOp.call ops h
    pure (.ok r)

/-- What the abstract map answers in a session, and the map at its end. -/
def mapSession (cmp : KeyCmp) (ops : List (MapOp δ)) : List (Result δ) × KeyMap cmp δ :=
  mapRun .empty ops

/-- Settings that the checks of an engine without a second hash or an array let through. -/
theorem lhiSetSanityCheck_plain {s : HiInitSet} {f : HashFunc} {cmp : KeyCmp}
    (hsize : s.tableSize ≠ 0) (hhash : s.hashFunc = some f) (hcmp : s.keyCmp = some cmp)
    (he : s.collEng = .list ∨ s.collEng = .listMtf ∨ s.collEng = .rbtree) :
    lhiSetSanityCheck s = .ok ⟨s.tableSize, s.collEng, s.rehashAuto, s.rehashThreshold,
      s.collEngArraySize, f, s.hash2Func, cmp⟩ := by
  rcases he with he | he | he <;> simp [lhiSetSanityCheck, hsize, hhash, hcmp, he]

/-- A session whose calls meet the condition of the engine, all allocations succeeding. -/
theorem Engine.runs_session_of_meets {G : Engine δ} {s : HiInitSet} {u : UserSettings}
    (hs : lhiSetSanityCheck s = .ok u) (hc : G.covers u.collEng) (heq : Equivalence u.keyCmp.same)
    (hw : w.AllocsSucceed) {ops : List (MapOp δ)} (hok : ∀ h w',
      Meets MapOp.call (mapMachine u.keyCmp δ True) (CallOk G u) ops .empty h w') :
    Total (session s ops) w fun r w' =>
      ∃ h bs, r = .ok ((mapSession u.keyCmp ops).1, h) ∧
        MapRep G u h w' (mapSession u.keyCmp ops).2 bs := by
  unfold session
  refine Runs.bind (G.runs_hiCreate hs hc) fun r w₁ hw₁ h₁ => ?_
  rcases h₁ with ⟨-, hfail⟩ | ⟨h, rfl, -, hrep⟩
  · exact (hfail hw).elim
  refine runs_bind.mpr ((G.runs_mapOps heq ⟨_, hrep⟩ (hok h w₁)).imp ?_)
  rintro ⟨rs, h'⟩ w₂ ⟨m', ht, bs', hrep'⟩
  have hrun : mapSession u.keyCmp ops = (rs, m') := mapRun_of_traces (hw.mono hw₁) ht
  rw [hrun]
  exact ⟨h', bs', rfl, hrep'⟩

/-- A session without rehashing, all allocations succeeding. -/
theorem Engine.runs_session {G : Engine δ} {s : HiInitSet} {u : UserSettings}
    (hs : lhiSetSanityCheck s = .ok u) (hc : G.covers u.collEng) (hauto : u.rehashAuto = 0)
    (heq : Equivalence u.keyCmp.same) (had : G.Admits u.hashFunc u.keyCmp fun _ => True)
    (hw : w.AllocsSucceed) (ops : List (MapOp δ)) :
    Total (session s ops) w fun r w' =>
      ∃ h bs, r = .ok ((mapSession u.keyCmp ops).1, h) ∧
        MapRep G u h w' (mapSession u.keyCmp ops).2 bs :=
  G.runs_session_of_meets hs hc heq hw fun _ _ => .of_forall fun _ _ _ _ =>
    ⟨G.admits_mono had fun _ _ => trivial, fun ha => (ha hauto).elim⟩

/-- A session without insertions, in which the table stays empty. -/
theorem Engine.runs_session_reads {G : Engine δ} {s : HiInitSet} {u : UserSettings}
    (hs : lhiSetSanityCheck s = .ok u) (hc : G.covers u.collEng) (heq : Equivalence u.keyCmp.same)
    (had : G.Admits u.hashFunc u.keyCmp fun _ => True) (hw : w.AllocsSucceed) {ops : List (MapOp δ)}
    (hreads : ∀ k d, MapOp.insert k d ∉ ops) :
    Total (session s ops) w fun r w' =>
      ∃ h bs, r = .ok ((mapSession u.keyCmp ops).1, h) ∧
        MapRep G u h w' (mapSession u.keyCmp ops).2 bs := by
  refine G.runs_session_of_meets hs hc heq hw fun h w' =>
    .of_invariant (R := fun _ _ m => m = .empty) rfl ?_ ?_
  · rintro op - m h w' rfl
    exact ⟨G.admits_mono had fun _ _ => trivial, fun _ _ => ⟨.inr rfl, Nat.two_pow_pos 32⟩⟩
  · rintro op hop m h w' rfl
    refine partial_trivial.imp fun r w'' _ => ?_
    have hnext : (mapStep (.empty : KeyMap u.keyCmp δ) op).2 = .empty :=
      mapStep_empty fun k d he => hreads k d (he ▸ hop)
    simp only [mapMachine, hnext, ite_self]

end Hashish
