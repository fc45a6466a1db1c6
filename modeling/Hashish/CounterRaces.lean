import Hashish.InsertAtomicity
import Hashish.Sections

/-!
# The counter of a shared tree table

`lhi_insert_rbtree` and `lhi_remove_rbtree` change a tree in one section and `no_objects` in
another one. An entry can be found, removed and counted out before it was counted in.

* `rbtree_counter_bounded`: as long as no removal looks for the key of an insertion that is still to
  be counted, `no_objects` is at most the number of insertions.
* `rbtree_counter_wraps`: three sections that lead below zero.
-/

namespace Hashish

open Hashish.Lib

variable {δ κ : Type} {w : World} {h : HiHandle δ}

/-- What the clients `κ` of a table do. -/
abbrev TableAct (δ κ : Type) := Act (MapOp δ) (Stage δ) (Result δ) κ

abbrev SharedTable (δ κ : Type) := Shared World (HiHandle δ) (MapOp δ) (Stage δ) κ

/-- A table that no client uses yet. -/
def idleTable (h : HiHandle δ) (w : World) : SharedTable δ κ := ⟨h, w, fun _ => none⟩

theorem idle_idleTable : (idleTable h w : SharedTable δ κ).Idle := fun _ => rfl

/-! ## Counting sections -/

def Stage.isCount : MapOp δ → Stage δ → Bool
  | _, .count => true
  | _, _ => false

def Stage.isUncount : MapOp δ → Stage δ → Bool
  | _, .uncount _ => true
  | _, _ => false

/-- The calls of `hi_insert` whose node is in a tree. -/
def inserted (as : List (TableAct δ κ)) : Nat :=
  as.countP (Act.enters (tableProtocol δ) Stage.isCount)

/-- The calls of `hi_insert` that have incremented `no_objects`. -/
def countedIn (as : List (TableAct δ κ)) : Nat := as.countP (Act.leaves Stage.isCount)

/-- The calls of `hi_remove` that have decremented `no_objects`. -/
def countedOut (as : List (TableAct δ κ)) : Nat := as.countP (Act.leaves Stage.isUncount)

/-- The calls of `hi_remove` whose node has left its tree. -/
def removed (as : List (TableAct δ κ)) : Nat :=
  as.countP (Act.enters (tableProtocol δ) Stage.isUncount)

/-- The insertion of a key that is equal to `k` has linked its node, and is to count it. -/
def atCount (cmp : KeyCmp) (k : Key) : MapOp δ → Stage δ → Bool
  | .insert k' _, .count => decide (cmp.same k k')
  | _, _ => false

/-- No rehash is due, and a removal searches its tree only while no client has linked an equal key
that it has not counted. -/
def RemovesCounted (t : SharedTable δ κ) (a : TableAct δ κ) : Prop :=
  match a with
  | .go _ _ (.rehash _ _) _ => ¬ t.state.Due
  | .go _ _ (.start (.remove k)) _ => ∀ c, t.isAt (atCount t.state.keyCmp k) c = false
  | _ => True

/-! ## Sections, nodes and the counter -/

/-- The handle has the engine, the counter and the entries that `h` has. -/
structure SameNodes (h h' : HiHandle δ) : Prop where
  engine : h'.collEng = h.collEng
  count : h'.noObjects = h.noObjects
  entries : h'.entries = h.entries

theorem runs_onTree_nodes {tree : Nat} {f : RbRoot → Except Fault RbRoot} :
    Partial (h.onTree tree f) w fun h' _ => SameNodes h h' := by
  unfold HiHandle.onTree
  exact partial_bind fun _ _ => partial_bind fun _ _ => partial_bind fun _ _ => ⟨rfl, rfl, rfl⟩

/-- From `h` to `h'` an entry with the key was linked, at a new address. -/
def NodeLinked (key : Bytes) (h : HiHandle δ) (w : World) (h' : HiHandle δ) (w' : World) : Prop :=
  ∃ p e, w.requests ≤ p ∧ p < w'.requests ∧ e.key.cells = key ∧ h'.collEng = h.collEng ∧
    h'.noObjects = h.noObjects ∧ h'.entries = h.entries.set p (some e)

/-- From `h` to `h'` an entry was unlinked, whose key is equal. -/
def NodeUnlinked (key : Bytes) (h h' : HiHandle δ) : Prop :=
  ∃ p e, h.entries p = some e ∧ h.keyCmp key e.key.cells = 0 ∧ h'.collEng = h.collEng ∧
    h'.noObjects = h.noObjects ∧ h'.entries = h.entries.set p none

/-- The new entry has the key, and its address is new. -/
theorem runs_lhiRbEntryNew_node {k : Bytes} {d : δ} {keylen : UInt32} :
    Partial (lhiRbEntryNew k d keylen) w fun r w' => ∀ p e, r = some (p, e) →
      w.requests ≤ p ∧ p < w'.requests ∧ e.key.cells = k.take keylen.toNat := by
  unfold lhiRbEntryNew
  refine runs_bind.mpr (runs_malloc (fun w' _ _ _ => by simp) fun junk w₁ hw hreq _ => ?_)
  refine runs_bind.mpr (runs_malloc (fun w' _ _ _ => partial_bind fun _ _ => by simp) ?_)
  rintro junk' w₂ hw' hreq' -
  have hcopy : ∀ {q : Ptr} {n : Nat} {w : World}, Partial (memcpy q k n) w fun b w' =>
      b.cells = k.take n ∧ w' = w := by
    intro q n w
    unfold memcpy
    split
    · exact ⟨rfl, rfl⟩
    · trivial
  refine Runs.bind hcopy ?_
  rintro b w' - ⟨hb, rfl⟩ p e ⟨⟩
  exact ⟨le_rfl, show w.requests < w'.requests by omega, hb⟩

theorem runs_lhiInsertRbtreeNode_nodes {k : Key} {data : δ} :
    Partial (lhiInsertRbtreeNode h k.bytes k.keylen data) w fun r w' =>
      if r.1 = success then NodeLinked k.bytes h w r.2 w' else SameNodes h r.2 := by
  have hsame : ∀ {ret : Int} {w₁}, ret ≠ success → Partial (pure (ret, h) : Prog _) w₁ fun r w' =>
      if r.1 = success then NodeLinked k.bytes h w r.2 w' else SameNodes h r.2 :=
    fun hret => runs_pure.mpr ((if_neg hret).mpr ⟨rfl, rfl, rfl⟩)
  unfold lhiInsertRbtreeNode
  refine (Runs.bind partial_trivial fun tree w₁ hw₁ _ => Runs.bind partial_trivial fun t w₂ hw₂ _ =>
    Runs.bind partial_trivial fun _ w₃ hw₃ _ => Runs.bind partial_trivial fun r w₄ hw₄ _ => ?_)
  have hw := ((hw₁.trans hw₂).trans hw₃).trans hw₄
  cases r with
  | found p => exact partial_bind fun _ _ => hsame (by decide : hiErrDupkey ≠ success)
  | missing parent link =>
    refine Runs.bind runs_lhiRbEntryNew_node fun e w₅ _ hnew => ?_
    cases e with
    | none => exact partial_bind fun _ _ => hsame (by decide : hiErrSystem ≠ success)
    | some e =>
      obtain ⟨p, e⟩ := e
      obtain ⟨hold, hlt, hkey⟩ := hnew p e rfl
      refine Runs.bind partial_trivial fun fuel w₆ hw₆ _ =>
        Runs.bind runs_onTree_nodes fun h' w₇ hw₇ hs => Runs.bind partial_trivial fun _ w₈ hw₈ _ =>
        Runs.bind partial_trivial fun _ w₉ hw₉ _ => Runs.bind partial_trivial fun _ w' hw' _ => ?_
      have hmore := (((hw₆.trans hw₇).trans hw₈).trans hw₉).trans hw'
      refine runs_pure.mpr ((if_pos rfl).mpr ?_)
      refine ⟨p, e, Nat.le_trans hw.requests hold, Nat.lt_of_lt_of_le hlt hmore.requests,
        by simpa using hkey, hs.engine, hs.count, ?_⟩
      exact congrArg (Heap.set · p (some e)) hs.entries

theorem partial_deref {α : Type} {heap : Heap α} {p : Ptr} :
    Partial (deref heap (some p)) w fun a _ => heap p = some a := by
  unfold deref
  dsimp only
  split
  · trivial
  · assumption

/-- A descent ends at a node whose key is equal. -/
theorem runs_rbDescend_found {key : Bytes} {fuel : Nat} {p parent : Option Ptr} {link : RbLink} :
    Partial (rbDescend h key fuel p parent link) w fun r _ => ∀ q, r = .found q →
      ∃ e, h.entries q = some e ∧ h.keyCmp key e.key.cells = 0 := by
  induction fuel generalizing p parent link w with
  | zero => trivial
  | succ fuel ih =>
    cases p with
    | none => exact nofun
    | some p =>
      refine Runs.bind partial_deref fun e _ _ he => ?_
      refine runs_ite.mpr ⟨fun hd => ?_, fun _ => ?_⟩
      · rintro q ⟨⟩
        exact ⟨e, he, hd⟩
      · exact partial_bind fun n _ => runs_ite.mpr ⟨fun _ => ih, fun _ => ih⟩

theorem runs_descend_found {key : Bytes} {tree : Nat} :
    Partial (h.descend tree key) w fun r _ => ∀ q, r = .found q →
      ∃ e, h.entries q = some e ∧ h.keyCmp key e.key.cells = 0 :=
  partial_bind fun _ _ => partial_bind fun _ _ => runs_rbDescend_found

theorem runs_lhiRemoveRbtreeNode_nodes {key : Bytes} {keylen : UInt32} :
    Partial (lhiRemoveRbtreeNode h key keylen) w fun r _ =>
      if r.1.status = success then NodeUnlinked key h r.2 else SameNodes h r.2 := by
  unfold lhiRemoveRbtreeNode
  refine partial_bind fun tree _ => partial_bind fun t _ => partial_bind fun _ _ => ?_
  refine Runs.bind runs_descend_found fun r _ _ hfound => ?_
  cases r with
  | missing parent link =>
    refine partial_bind fun _ _ => ?_
    exact runs_pure.mpr ((if_neg (by decide : ¬ hiErrNokey = success)).mpr ⟨rfl, rfl, rfl⟩)
  | found p =>
    obtain ⟨e, he, hkey⟩ := hfound p rfl
    refine partial_bind fun _ _ => partial_bind fun fuel _ => ?_
    refine Runs.bind runs_onTree_nodes fun h' _ _ hs => ?_
    refine partial_bind fun _ _ => partial_bind fun _ _ => partial_bind fun _ _ => ?_
    refine partial_bind fun _ _ => partial_bind fun _ _ => ?_
    refine runs_pure.mpr ((if_pos rfl).mpr ⟨p, e, he, hkey, hs.engine, hs.count, ?_⟩)
    exact congrArg (Heap.set · p none) hs.entries

/-- Without a rehash that is due, `do_rehash` does nothing. -/
theorem runs_doRehash_idle {rehash : HiHandle δ → UInt32 → Prog (Int × HiHandle δ)}
    (hdue : ¬ h.Due) : Partial (doRehash rehash h) w fun h' w' => h' = h ∧ w' = w := by
  by_cases hu : h.tableSize = 0
  · unfold doRehash
    refine runs_ite.mpr ⟨fun _ => ⟨rfl, rfl⟩, fun _ => ?_⟩
    rw [udiv, if_pos hu]
    exact trivial
  · exact runs_doRehash hu (fun hd => (hdue hd).elim) fun _ => ⟨rfl, rfl⟩

/-- What a section does to the counter. -/
def Stage.tally (st : Stage δ) (n : UInt32) : UInt32 :=
  match st with
  | count => n + 1
  | uncount _ => n - 1
  | _ => n

/-- The stage belongs to an array table. -/
def Stage.isFill : Stage δ → Bool
  | .fill _ _ _ => true
  | _ => false

/-- What a section of a tree table does to its nodes, and where it leads to. -/
inductive NodeMove (h : HiHandle δ) (w : World) (h' : HiHandle δ) (w' : World) :
    Stage δ → Stage δ ⊕ Result δ → Prop
  | link {k : Key} {d : δ} (hlink : NodeLinked k.bytes h w h' w') :
      NodeMove h w h' w' (.insert k d) (.inl .count)
  | unlink {k : Key} {q : Result δ} (hunlink : NodeUnlinked k.bytes h h') :
      NodeMove h w h' w' (.start (.remove k)) (.inl (.uncount q))
  | keep {st : Stage δ} {r : Stage δ ⊕ Result δ}
      (hcount : ∀ i, r.getLeft?.any (Stage.isCount i) = false)
      (huncount : ∀ i, r.getLeft?.any (Stage.isUncount i) = false) (he : h'.collEng = h.collEng)
      (hentries : h'.entries = h.entries) (htally : h'.noObjects = st.tally h.noObjects) :
      NodeMove h w h' w' st r

theorem NodeMove.same {st : Stage δ} {r : Stage δ ⊕ Result δ} {w' : World} {h' : HiHandle δ}
    (hs : SameNodes h h') (htally : st.tally h.noObjects = h.noObjects)
    (hcount : ∀ i, r.getLeft?.any (Stage.isCount i) = false)
    (huncount : ∀ i, r.getLeft?.any (Stage.isUncount i) = false) : NodeMove h w h' w' st r :=
  .keep hcount huncount hs.engine hs.entries (hs.count.trans htally.symm)

/-- A section of a tree table that does not rehash. -/
theorem Stage.runs_advance_nodes (he : h.collEng = .rbtree) {st : Stage δ}
    (hfill : st.isFill = false) (hdue : ∀ k d, st = .rehash k d → ¬ h.Due) :
    Partial (st.advance h) w fun r w' => NodeMove h w r.2 w' st r.1 ∧
      ∀ p, r.1 = .inl p → p.isFill = false := by
  have hstay : ∀ {h' w'} {p : Stage δ}, SameNodes h h' → st.tally h.noObjects = h.noObjects →
      (∀ i, p.isCount i = false) → (∀ i, p.isUncount i = false) → p.isFill = false →
      NodeMove h w h' w' st (.inl p) ∧
        ∀ p', (Sum.inl p : Stage δ ⊕ Result δ) = .inl p' → p'.isFill = false := by
    intro h' w' p hs ht hc hu hf
    refine ⟨.same hs ht hc hu, ?_⟩
    rintro p' ⟨⟩
    exact hf
  have hend : ∀ {h' w'} {q : Result δ}, SameNodes h h' → st.tally h.noObjects = h.noObjects →
      NodeMove h w h' w' st (.inr q) ∧
        ∀ p', (Sum.inr q : Stage δ ⊕ Result δ) = .inl p' → p'.isFill = false :=
    fun hs ht => ⟨.same hs ht (fun _ => rfl) fun _ => rfl, nofun⟩
  have hself : SameNodes h h := ⟨rfl, rfl, rfl⟩
  cases st with
  | start op =>
    cases op with
    | insert k d =>
      refine partial_bind fun found _ => ?_
      exact runs_ite.mpr ⟨fun _ => hend hself rfl,
        fun _ => hstay hself rfl (fun _ => rfl) (fun _ => rfl) rfl⟩
    | get k =>
      unfold Stage.advance
      simp only [he]
      exact partial_bind fun _ _ => partial_bind fun _ _ =>
        hstay hself rfl (fun _ => rfl) (fun _ => rfl) rfl
    | remove k =>
      unfold Stage.advance
      simp only [he]
      refine Runs.bind runs_lhiRemoveRbtreeNode_nodes fun r w' _ hr => ?_
      refine runs_ite.mpr ⟨fun hs => ?_, fun hs => ?_⟩
      · rw [if_pos hs] at hr
        refine ⟨.unlink hr, ?_⟩
        rintro p ⟨⟩
        rfl
      · rw [if_neg hs] at hr
        exact hend hr rfl
  | seek tree root k => exact partial_bind fun _ _ => hend hself rfl
  | rehash k d =>
    refine Runs.bind (runs_doRehash_idle (hdue k d rfl)) ?_
    rintro h' w' - ⟨rfl, -⟩
    exact hstay hself rfl (fun _ => rfl) (fun _ => rfl) rfl
  | insert k d =>
    unfold Stage.advance
    simp only [he]
    refine Runs.bind runs_lhiInsertRbtreeNode_nodes fun r w' _ hr => ?_
    refine runs_ite.mpr ⟨fun hs => ?_, fun hs => ?_⟩
    · rw [if_pos hs] at hr
      refine ⟨.link hr, ?_⟩
      rintro p ⟨⟩
      rfl
    · rw [if_neg hs] at hr
      exact hend hr rfl
  | fill bucket k d => cases hfill
  | count => exact ⟨.keep (fun _ => rfl) (fun _ => rfl) rfl rfl rfl, nofun⟩
  | uncount r => exact ⟨.keep (fun _ => rfl) (fun _ => rfl) rfl rfl rfl, nofun⟩

theorem NodeMove.tally {st : Stage δ} {r : Stage δ ⊕ Result δ} {w' : World} {h' : HiHandle δ}
    (hm : NodeMove h w h' w' st r) :
    h'.collEng = h.collEng ∧ h'.noObjects = st.tally h.noObjects := by
  cases hm with
  | link hlink =>
    obtain ⟨p, e, -, -, -, he, hn, -⟩ := hlink
    exact ⟨he, hn⟩
  | unlink hunlink =>
    obtain ⟨p, e, -, -, he, hn, -⟩ := hunlink
    exact ⟨he, hn⟩
  | keep _ _ he _ hn => exact ⟨he, hn⟩

theorem Stage.leaves_isCount {p : Stage δ} {i : MapOp δ} {c : κ} {r : Stage δ ⊕ Result δ}
    {s' : HiHandle δ} {w' : World} (hrun : (p.advance h).run w = .ok ((r, s'), w')) :
    (Act.go c i p r : TableAct δ κ).leaves Stage.isCount = p.isCount i ∧
      (Act.go c i p r : TableAct δ κ).leaves Stage.isUncount = p.isUncount i := by
  -- A counting section ends its call.
  cases p <;> first | exact ⟨rfl, rfl⟩ | (cases hrun; exact ⟨rfl, rfl⟩)

/-! ## Runs -/

variable {as : List (TableAct δ κ)} {t : SharedTable δ κ}

theorem inserted_concat {a : TableAct δ κ} :
    inserted (as ++ [a]) = inserted as + inserted [a] := List.countP_append

theorem removed_concat {a : TableAct δ κ} :
    removed (as ++ [a]) = removed as + removed [a] := List.countP_append

theorem countedIn_concat {a : TableAct δ κ} :
    countedIn (as ++ [a]) = countedIn as + if a.leaves Stage.isCount then 1 else 0 := by
  rw [countedIn, List.countP_append, List.countP_singleton, countedIn]

theorem countedOut_concat {a : TableAct δ κ} :
    countedOut (as ++ [a]) = countedOut as + if a.leaves Stage.isUncount then 1 else 0 := by
  rw [countedOut, List.countP_append, List.countP_singleton, countedOut]

variable [DecidableEq κ]

/-- The calls in progress are those of a tree table. -/
structure TreeCalls (t : SharedTable δ κ) : Prop where
  engine : t.state.collEng = .rbtree
  noFill : ∀ c i p, t.pending c = some (i, p) → p.isFill = false
  stages : ∀ c i p, t.pending c = some (i, p) → p.Of i

/-- The nodes of a tree table are at the addresses `L`, and `f` gives the node of each client that is
to count one. -/
structure LiveNodes (as : List (TableAct δ κ)) (t : SharedTable δ κ) (L : Finset Ptr) (f : κ → Ptr) :
    Prop where
  live : ∀ p, p ∈ L ↔ t.state.entries p ≠ none
  old : ∀ p ∈ L, p < t.world.requests
  size : L.card + removed as = inserted as
  own : ∀ c i, t.pending c = some (i, .count) →
    ∃ e, t.state.entries (f c) = some e ∧ e.key.cells = i.key.bytes
  apart : ∀ c c' i i', t.pending c = some (i, .count) → t.pending c' = some (i', .count) →
    f c = f c' → c = c'

section LiveNodes

variable {L : Finset Ptr} {f : κ → Ptr} {a : TableAct δ κ} {v : SharedTable δ κ} {c : κ}
  {i : MapOp δ} {s' : HiHandle δ} {w' : World} {k : Key} {d : δ} {p : Stage δ}
  {r : Stage δ ⊕ Result δ}

theorem TreeCalls.step (ht : TreeCalls t) (hok : RemovesCounted t a)
    (hstep : Step (tableProtocol δ) t a v) : TreeCalls v := by
  have hstages := Stage.of_step ht.stages hstep
  have hfill : (∀ i p, a.after (tableProtocol δ) = some (i, p) → p.isFill = false) →
      ∀ c i p, v.pending c = some (i, p) → p.isFill = false := by
    intro hnext c i p hp
    by_cases hc : c = a.client
    · subst hc
      exact hnext i p (hstep.pending_self.symm.trans hp)
    · exact ht.noFill c i p ((hstep.pending_other hc).symm.trans hp)
  cases hstep with
  | call h =>
    refine ⟨ht.engine, hfill ?_, hstages⟩
    rintro _ _ ⟨⟩
    rfl
  | @go c i p r s' w' h hrun =>
    have hdue : ∀ k d, p = .rehash k d → ¬ t.state.Due := by
      rintro k d rfl
      exact hok
    obtain ⟨hmove, hnext⟩ :=
      (Stage.runs_advance_nodes ht.engine (ht.noFill c i p h) hdue).of_run hrun
    refine ⟨hmove.tally.1.trans ht.engine, hfill fun i' p' hp => ?_, hstages⟩
    obtain ⟨q, hq, hp⟩ := Option.map_eq_some_iff.mp hp
    cases hp
    exact hnext _ (by simpa using hq)

/-- The clients that are to count a node were to count it before. -/
theorem pending_count (hr : ∀ i, r.getLeft?.any (Stage.isCount i) = false) {c' : κ} {i' : MapOp δ}
    (hp : Function.update t.pending c (r.getLeft?.map fun p' => (i, p')) c' = some (i', .count)) :
    t.pending c' = some (i', .count) := by
  by_cases hc : c' = c
  · subst hc
    rw [Function.update_self] at hp
    obtain ⟨q, hq, hp⟩ := Option.map_eq_some_iff.mp hp
    cases hp
    have := hr i
    rw [hq] at this
    cases this
  · rwa [Function.update_of_ne hc] at hp

omit [DecidableEq κ] in
theorem LiveNodes.own_mem (hl : LiveNodes as t L f) (hp : t.pending c = some (i, .count)) :
    f c ∈ L := by
  obtain ⟨e, he, -⟩ := hl.own c i hp
  exact (hl.live _).mpr (by simp [he])

theorem LiveNodes.call (hl : LiveNodes as t L f) :
    LiveNodes (as ++ [.call c i])
      { t with pending := Function.update t.pending c (some (i, .start i)) } L f := by
  have hcount : ∀ c' i', Function.update t.pending c (some (i, .start i)) c' = some (i', .count) →
      t.pending c' = some (i', .count) :=
    fun c' i' hp => pending_count (r := .inl (.start i)) (fun _ => rfl) hp
  refine ⟨hl.live, hl.old, ?_, fun c' i' hp => hl.own c' i' (hcount _ _ hp), ?_⟩
  · rw [removed_concat, inserted_concat]
    exact hl.size
  · exact fun c₁ c₂ i₁ i₂ h₁ h₂ => hl.apart c₁ c₂ i₁ i₂ (hcount _ _ h₁) (hcount _ _ h₂)

/-- The client that has linked a node is to count it. -/
theorem LiveNodes.link (hl : LiveNodes as t L f) (hgrown : t.world.requests ≤ w'.requests)
    (hlink : NodeLinked k.bytes t.state t.world s' w') :
    ∃ L f, LiveNodes (as ++ [.go c (.insert k d) (.insert k d) (.inl .count)])
      ⟨s', w', Function.update t.pending c (some (.insert k d, .count))⟩ L f := by
  obtain ⟨q, e, hnew, hlt, hkey, -, -, hentries⟩ := hlink
  have hq : q ∉ L := fun hm => Nat.not_lt.mpr hnew (hl.old q hm)
  have hother : ∀ c' i', t.pending c' = some (i', .count) → f c' ≠ q :=
    fun c' i' hp he => hq (he ▸ hl.own_mem hp)
  have hpending : ∀ {c' i'}, c' ≠ c →
      Function.update t.pending c (some (MapOp.insert k d, .count)) c' = some (i', .count) →
      t.pending c' = some (i', .count) := fun hc hp => by
    rwa [Function.update_of_ne hc] at hp
  refine ⟨insert q L, Function.update f c q, fun p => ?_, ?_, ?_, ?_, ?_⟩
  · dsimp only
    rw [Finset.mem_insert, hentries, hl.live]
    by_cases hp : p = q
    · simp [hp]
    · rw [Heap.set_other _ _ hp]
      simp [hp]
  · intro p hp
    rcases Finset.mem_insert.mp hp with rfl | hp
    · exact hlt
    · exact Nat.lt_of_lt_of_le (hl.old p hp) hgrown
  · rw [Finset.card_insert_of_notMem hq, removed_concat, inserted_concat]
    have hsize := hl.size
    show L.card + 1 + (removed as + 0) = inserted as + 1
    omega
  · intro c' i' hp
    dsimp only at hp ⊢
    by_cases hc : c' = c
    · subst hc
      rw [Function.update_self] at hp ⊢
      cases hp
      exact ⟨e, by rw [hentries, Heap.set_same], hkey⟩
    · have hp' := hpending hc hp
      rw [Function.update_of_ne hc, hentries, Heap.set_other _ _ (hother c' i' hp')]
      exact hl.own c' i' hp'
  · intro c₁ c₂ i₁ i₂ h₁ h₂ heq
    by_cases hc₁ : c₁ = c <;> by_cases hc₂ : c₂ = c
    · rw [hc₁, hc₂]
    · rw [hc₁, Function.update_self, Function.update_of_ne hc₂] at heq
      exact (hother c₂ i₂ (hpending hc₂ h₂) heq.symm).elim
    · rw [hc₂, Function.update_self, Function.update_of_ne hc₁] at heq
      exact (hother c₁ i₁ (hpending hc₁ h₁) heq).elim
    · rw [Function.update_of_ne hc₁, Function.update_of_ne hc₂] at heq
      exact hl.apart c₁ c₂ i₁ i₂ (hpending hc₁ h₁) (hpending hc₂ h₂) heq

/-- The node that is unlinked is nobody's that is still to be counted. -/
theorem LiveNodes.unlink (hl : LiveNodes as t L f) (ht : TreeCalls t)
    (hgrown : t.world.requests ≤ w'.requests) {o : Result δ}
    (hok : ∀ c, t.isAt (atCount t.state.keyCmp k) c = false)
    (hunlink : NodeUnlinked k.bytes t.state s') :
    ∃ L, LiveNodes (as ++ [.go c i (.start (.remove k)) (.inl (.uncount o))])
      ⟨s', w', Function.update t.pending c (some (i, .uncount o))⟩ L f := by
  obtain ⟨q, e, hq, hsame, -, -, hentries⟩ := hunlink
  have hpending : ∀ {c' i'}, Function.update t.pending c (some (i, Stage.uncount o)) c' =
      some (i', .count) → t.pending c' = some (i', .count) :=
    pending_count (r := .inl (.uncount o)) fun _ => rfl
  have hother : ∀ c' i', t.pending c' = some (i', .count) → f c' ≠ q := by
    rintro c' i' hp rfl
    obtain ⟨e', he', hkey⟩ := hl.own c' i' hp
    obtain ⟨k', d, rfl⟩ := ht.stages c' i' _ hp
    have hno := hok c'
    rw [Shared.isAt, hp] at hno
    cases he'.symm.trans hq
    rw [hkey] at hsame
    exact of_decide_eq_false hno hsame
  refine ⟨L.erase q, fun p => ?_, ?_, ?_, ?_, ?_⟩
  · dsimp only
    rw [Finset.mem_erase, hentries, hl.live]
    by_cases hp : p = q
    · simp [hp]
    · rw [Heap.set_other _ _ hp]
      simp [hp]
  · exact fun p hp => Nat.lt_of_lt_of_le (hl.old p (Finset.mem_of_mem_erase hp)) hgrown
  · have hcard := Finset.card_erase_add_one ((hl.live q).mpr (by simp [hq]))
    rw [removed_concat, inserted_concat]
    have hsize := hl.size
    show (L.erase q).card + (removed as + 1) = inserted as + 0
    omega
  · intro c' i' hp
    have hp' := hpending hp
    dsimp only
    rw [hentries, Heap.set_other _ _ (hother c' i' hp')]
    exact hl.own c' i' hp'
  · exact fun c₁ c₂ i₁ i₂ h₁ h₂ => hl.apart c₁ c₂ i₁ i₂ (hpending h₁) (hpending h₂)

theorem LiveNodes.keep (hl : LiveNodes as t L f) (hgrown : t.world.requests ≤ w'.requests)
    (hcount : ∀ i, r.getLeft?.any (Stage.isCount i) = false)
    (huncount : ∀ i, r.getLeft?.any (Stage.isUncount i) = false)
    (hentries : s'.entries = t.state.entries) :
    LiveNodes (as ++ [.go c i p r])
      ⟨s', w', Function.update t.pending c (r.getLeft?.map fun p' => (i, p'))⟩ L f := by
  have hpending : ∀ {c' i'}, Function.update t.pending c (r.getLeft?.map fun p' => (i, p')) c' =
      some (i', .count) → t.pending c' = some (i', .count) := pending_count hcount
  refine ⟨fun p => hentries ▸ hl.live p, fun p hp => Nat.lt_of_lt_of_le (hl.old p hp) hgrown, ?_,
    fun c' i' hp => hentries ▸ hl.own c' i' (hpending hp), ?_⟩
  · rw [removed_concat, inserted_concat]
    have hr : removed [(Act.go c i p r : TableAct δ κ)] = 0 := by
      simp [removed, Act.enters, huncount]
    have hi : inserted [(Act.go c i p r : TableAct δ κ)] = 0 := by
      simp [inserted, Act.enters, hcount]
    rw [hr, hi]
    exact hl.size
  · exact fun c₁ c₂ i₁ i₂ h₁ h₂ => hl.apart c₁ c₂ i₁ i₂ (hpending h₁) (hpending h₂)

theorem LiveNodes.step (hl : LiveNodes as t L f) (ht : TreeCalls t) (hok : RemovesCounted t a)
    (hstep : Step (tableProtocol δ) t a v) : ∃ L f, LiveNodes (as ++ [a]) v L f := by
  cases hstep with
  | call h => exact ⟨L, f, hl.call⟩
  | @go c i p r s' w' h hrun =>
    have hdue : ∀ k d, p = .rehash k d → ¬ t.state.Due := by
      rintro k d rfl
      exact hok
    obtain ⟨hmove, -⟩ :=
      (Stage.runs_advance_nodes ht.engine (ht.noFill c i p h) hdue).of_run hrun
    have hgrown := ((p.advance t.state).grows hrun).requests
    cases hmove with
    | @link k d hlink =>
      obtain rfl : i = .insert k d := ht.stages c i _ h
      exact hl.link hgrown hlink
    | @unlink k o hunlink =>
      obtain ⟨L', hl'⟩ := hl.unlink ht hgrown hok hunlink
      exact ⟨L', f, hl'⟩
    | keep hcount huncount _ hentries _ => exact ⟨L, f, hl.keep hgrown hcount huncount hentries⟩

end LiveNodes

/-- A counter that has counted `m` up and `n` down, after a section. -/
theorem Stage.tally_counts (p : Stage δ) (i : MapOp δ) {m n : Nat} {x : UInt32} (hle : n ≤ m)
    (hx : x = UInt32.ofNat (m - n)) (hlt : p.isUncount i = true → n < m) :
    (n + if p.isUncount i then 1 else 0) ≤ (m + if p.isCount i then 1 else 0) ∧
      p.tally x = UInt32.ofNat
        ((m + if p.isCount i then 1 else 0) - (n + if p.isUncount i then 1 else 0)) := by
  cases p with
  | count =>
    refine ⟨Nat.le_succ_of_le hle, ?_⟩
    show x + 1 = UInt32.ofNat (m + 1 - n)
    rw [hx, Nat.succ_sub hle, ofNat_succ]
  | uncount r =>
    have h := hlt rfl
    refine ⟨h, ?_⟩
    show x - 1 = UInt32.ofNat (m - (n + 1))
    rw [hx, show m - n = m - (n + 1) + 1 by omega, ofNat_pred]
  | _ => exact ⟨hle, hx⟩

theorem runs_lhiCreateEngRbtree_nodes :
    Partial (lhiCreateEngRbtree h) w fun r _ => ∀ h', r = .ok h' → SameNodes h h' := by
  unfold lhiCreateEngRbtree
  refine partial_bind fun trees _ => ?_
  cases trees with
  | none => exact runs_pure.mpr fun _ h => (by cases h)
  | some trees =>
    refine partial_bind fun _ _ => partial_bind fun cells _ => ?_
    cases cells with
    | error e => exact runs_pure.mpr fun _ h => (by cases h)
    | ok cells =>
      refine partial_bind fun _ _ => runs_pure.mpr ?_
      rintro h' ⟨⟩
      exact ⟨rfl, rfl, rfl⟩

/-- A new tree table has no entries, and has counted none. -/
theorem runs_hiCreate_nodes {s : HiInitSet} {u : UserSettings} (hs : lhiSetSanityCheck s = .ok u)
    (he : u.collEng = .rbtree) :
    Partial (hiCreate s : Prog (Except Int (HiHandle δ))) w fun r _ => ∀ h, r = .ok h →
      h.collEng = .rbtree ∧ h.noObjects = 0 ∧ ∀ p, h.entries p = none := by
  unfold hiCreate
  refine partial_bind fun self _ => ?_
  cases self with
  | error e => exact runs_pure.mpr fun _ h => (by cases h)
  | ok self =>
    simp only [hs]
    unfold createWith
    refine partial_bind fun sizes _ => ?_
    cases sizes with
    | error e => exact runs_pure.mpr fun _ h => (by cases h)
    | ok sizes =>
      refine partial_bind fun lock _ => ?_
      cases lock with
      | error e => exact runs_pure.mpr fun _ h => (by cases h)
      | ok lock =>
        have heng : (HiHandle.ofSettings u self sizes lock : HiHandle δ).collEng = .rbtree := he
        dsimp only
        unfold createEng
        simp only [heng]
        refine runs_lhiCreateEngRbtree_nodes.imp fun r _ hr h hok => ?_
        have hsame := hr h hok
        exact ⟨hsame.engine.trans heng, hsame.count, fun p => congrFun hsame.entries p⟩

omit [DecidableEq κ] in
theorem LiveNodes.start (hempty : ∀ p, h.entries p = none) :
    LiveNodes [] (idleTable h w : SharedTable δ κ) ∅ fun _ => 0 where
  live p := by simp [idleTable, hempty]
  old := by simp
  size := rfl
  own := nofun
  apart := nofun

section Runs

variable {s : SharedTable δ κ}

/-- A removal that is still to be counted has taken an entry whose insertion was counted. -/
theorem LiveNodes.counted_lt {L : Finset Ptr} {f : κ → Ptr} (hl : LiveNodes as t L f)
    (hrun : Run (tableProtocol δ) (fun _ => RemovesCounted) s as t) (hidle : s.Idle) {c : κ}
    {i : MapOp δ} {q : Result δ} (hp : t.pending c = some (i, .uncount q)) :
    countedOut as < countedIn as := by
  obtain ⟨P, hP, hin⟩ := hrun.flow (q := Stage.isCount) hidle.isAt
  obtain ⟨U, hU, hout⟩ := hrun.flow (q := Stage.isUncount) hidle.isAt
  have hpending : ∀ c ∈ P, ∃ i, t.pending c = some (i, .count) := by
    intro c hc
    obtain ⟨⟨i, p⟩, hp, hcount⟩ := Option.any_eq_true _ _ |>.mp ((hP c).mp hc)
    cases p with
    | count => exact ⟨i, hp⟩
    | _ => cases hcount
  -- Each insertion that is still to be counted has a node of its own.
  have hnodes : P.card ≤ L.card := by
    refine Finset.card_le_card_of_injOn f (fun c hc => ?_) fun c hc c' hc' heq => ?_
    · obtain ⟨i, hp⟩ := hpending c hc
      exact hl.own_mem hp
    · obtain ⟨i, hp⟩ := hpending c hc
      obtain ⟨i', hp'⟩ := hpending c' hc'
      exact hl.apart c c' i i' hp hp' heq
  have hone : 0 < U.card := Finset.card_pos.mpr ⟨c, (hU c).mpr (by rw [Shared.isAt, hp]; rfl)⟩
  have hsize := hl.size
  rw [inserted, hin, removed, hout] at hsize
  rw [countedIn, countedOut]
  omega

/-- What the counter of a tree table has counted. -/
structure Tallied (as : List (TableAct δ κ)) (t : SharedTable δ κ) : Prop where
  calls : TreeCalls t
  nodes : ∃ L f, LiveNodes as t L f
  order : countedOut as ≤ countedIn as
  counter : t.state.noObjects = UInt32.ofNat (countedIn as - countedOut as)

theorem Tallied.step {a : TableAct δ κ} {u : SharedTable δ κ} (ht : Tallied as t)
    (hrun : Run (tableProtocol δ) (fun _ => RemovesCounted) s as t) (hidle : s.Idle)
    (hok : RemovesCounted t a) (hstep : Step (tableProtocol δ) t a u) : Tallied (as ++ [a]) u := by
  obtain ⟨hcalls, ⟨L, f, hl⟩, horder, hcounter⟩ := ht
  have hcalls' := hcalls.step hok hstep
  have hl' := hl.step hcalls hok hstep
  cases hstep with
  | @call c i h =>
    have hsame : ∀ q, (Act.call c i : TableAct δ κ).leaves q = false := fun _ => rfl
    refine ⟨hcalls', hl', ?_, ?_⟩
    · simpa [countedIn_concat, countedOut_concat, hsame] using horder
    · simpa [countedIn_concat, countedOut_concat, hsame] using hcounter
  | @go c i p r s' w' h hsection =>
    obtain ⟨hin, hout⟩ := Stage.leaves_isCount (c := c) (i := i) hsection
    have hdue : ∀ k d, p = .rehash k d → ¬ t.state.Due := by
      rintro k d rfl
      exact hok
    obtain ⟨hmove, -⟩ :=
      (Stage.runs_advance_nodes hcalls.engine (hcalls.noFill c i p h) hdue).of_run hsection
    have hlt : p.isUncount i = true → countedOut as < countedIn as := fun hp => by
      cases p with
      | uncount r => exact hl.counted_lt hrun hidle h
      | _ => cases hp
    have htally := p.tally_counts i horder hcounter hlt
    rw [← hin, ← hout, ← countedIn_concat, ← countedOut_concat] at htally
    exact ⟨hcalls', hl', htally.1, hmove.tally.2.trans htally.2⟩

theorem Tallied.of_run {s : HiInitSet} {u : UserSettings} {w₀ : World}
    (hs : lhiSetSanityCheck s = .ok u) (he : u.collEng = .rbtree)
    (hcreate : (hiCreate s).run w₀ = .ok (.ok h, w))
    (hrun : Run (tableProtocol δ) (fun _ => RemovesCounted) (idleTable h w) as t) : Tallied as t := by
  induction hrun with
  | nil =>
    obtain ⟨heng, hn, hempty⟩ := (runs_hiCreate_nodes hs he).of_run hcreate h rfl
    exact ⟨⟨heng, nofun, nofun⟩, ⟨∅, _, .start hempty⟩, le_rfl, hn⟩
  | snoc hrun hok hstep ih => exact ih.step hrun idle_idleTable hok hstep

/-- The counter is at most the number of insertions that have taken place, in every run in which a
removal searches its tree only while no equal key is linked and not yet counted. -/
theorem rbtree_counter_bounded {s : HiInitSet} {u : UserSettings} {w₀ : World}
    (hs : lhiSetSanityCheck s = .ok u) (he : u.collEng = .rbtree)
    (hcreate : (hiCreate s).run w₀ = .ok (.ok h, w))
    (hrun : Run (tableProtocol δ) (fun _ => RemovesCounted) (idleTable h w) as t) :
    t.state.noObjects.toNat ≤ inserted as := by
  have ht := Tallied.of_run hs he hcreate hrun
  calc t.state.noObjects.toNat
      = (countedIn as - countedOut as) % 2 ^ 32 := by rw [ht.counter, UInt32.toNat_ofNat']
    _ ≤ countedIn as - countedOut as := Nat.mod_le _ _
    _ ≤ countedIn as := Nat.sub_le _ _
    _ ≤ inserted as := hrun.leaves_le idle_idleTable.isAt

end Runs

/-- A test for `RemovesCounted`, for clients that can be listed. -/
def removesCounted (t : SharedTable δ Bool) (a : TableAct δ Bool) : Bool :=
  match a with
  | .go _ _ (.rehash _ _) _ => t.state.rehashAuto == 0
  | .go _ _ (.start (.remove k)) _ =>
    !t.isAt (atCount t.state.keyCmp k) false && !t.isAt (atCount t.state.keyCmp k) true
  | _ => true

theorem removesCounted_sound {t : SharedTable δ Bool} {a : TableAct δ Bool}
    (h : removesCounted t a = true) : RemovesCounted t a := by
  cases a with
  | call c i => trivial
  | go c i p r =>
    cases p with
    | start op =>
      cases op with
      | remove k =>
        obtain ⟨h₀, h₁⟩ := Bool.and_eq_true_iff.mp h
        intro c
        cases c
        · simpa using h₀
        · simpa using h₁
      | _ => trivial
    | rehash k d => exact fun hdue => hdue.1 (beq_iff_eq.mp h)
    | _ => trivial

/-- One client has linked two keys and counted the first one, which the other one removes. -/
theorem rbtree_counter_bounded_two :
    ∃ (h : HiHandle String) (w : World) (as : List (TableAct String Bool))
      (t : SharedTable String Bool),
      (hiCreate oneTree).run (World.start fun _ _ => 0) = .ok (.ok h, w) ∧
      Run (tableProtocol String) (fun _ => RemovesCounted) (idleTable h w) as t ∧ inserted as = 2 ∧
      (answers true as).map (fun q => q.2.status) = [success] ∧ t.state.noObjects = 0 ∧
      t.state.noObjects.toNat ≤ inserted as := by
  obtain ⟨h, w, as, t, hcreate, hfollow, hins, hans, hzero⟩ :
      ∃ (h : HiHandle String) (w : World) (as : List (TableAct String Bool))
        (t : SharedTable String Bool),
      (hiCreate oneTree).run (World.start fun _ _ => 0) = .ok (.ok h, w) ∧
      (tableProtocol String).follow (fun _ t a => removesCounted t a)
        [(false, some (.insert ⟨[1, 0], by decide⟩ "one")), (false, none), (false, none), (false, none),
          (false, none), (false, some (.insert ⟨[2, 0], by decide⟩ "two")), (false, none),
          (true, some (.remove ⟨[1, 0], by decide⟩)), (false, none), (false, none), (true, none),
          (true, none)] [] (idleTable h w) =
        some (as, t) ∧ inserted as = 2 ∧
      (answers true as).map (fun q => q.2.status) = [success] ∧ t.state.noObjects = 0 :=
    ⟨_, _, _, _, rfl, rfl, rfl, rfl, rfl⟩
  have hrun := (Run.nil.of_follow hfollow).imp fun _ _ _ => removesCounted_sound
  exact ⟨h, w, as, t, hcreate, hrun, hins, hans, hzero, rbtree_counter_bounded rfl rfl hcreate hrun⟩

/-- One client's entry is found, removed and counted out by another client before it is counted in:
the counter is `2 ^ 32 - 1` after one insertion. -/
theorem rbtree_counter_wraps :
    ∃ (h : HiHandle String) (w : World) (as : List (TableAct String Nat)) (t : SharedTable String Nat),
      (hiCreate oneTree).run (World.start fun _ _ => 0) = .ok (.ok h, w) ∧
      Run (tableProtocol String) (fun _ _ _ => True) (idleTable h w) as t ∧ inserted as = 1 ∧
      t.state.noObjects.toNat = 2 ^ 32 - 1 := by
  obtain ⟨h, w, as, t, hcreate, hfollow, hins, hcount⟩ :
      ∃ (h : HiHandle String) (w : World) (as : List (TableAct String Nat))
        (t : SharedTable String Nat),
      (hiCreate oneTree).run (World.start fun _ _ => 0) = .ok (.ok h, w) ∧
      (tableProtocol String).follow (fun _ _ _ => true)
        [(0, some (.insert ⟨[1, 0], by decide⟩ "one")), (0, none), (0, none), (0, none),
          (1, some (.remove ⟨[1, 0], by decide⟩)), (1, none), (1, none)] [] (idleTable h w) =
        some (as, t) ∧ inserted as = 1 ∧ t.state.noObjects.toNat = 2 ^ 32 - 1 :=
    ⟨_, _, _, _, rfl, rfl, rfl, rfl⟩
  exact ⟨h, w, as, t, hcreate, (Run.nil.of_follow hfollow).imp fun _ _ _ _ => trivial, hins, hcount⟩

end Hashish
