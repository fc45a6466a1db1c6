import Hashish.CounterRaces
import Hashish.SharedContents

/-!
# Equal keys in a shared table

`hi_insert` looks for its key before it links a new entry. `lhi_insert_rbtree` does both in
one section; `COLL_ENG_LIST` and `COLL_ENG_ARRAY` do not, so two clients can both find the key
absent and both link it.

* `shared_keys_distinct`: as long as no key is linked that is already there, a table never
  stores two equal keys, and of several insertions of one key exactly one succeeds.
* `run_linksAbsent`: that is so when nobody links a key between the lookup and the link of an equal
  one by another client.
* `shared_keys_doubled`: two clients that store a key twice.
-/

namespace Hashish

open Hashish.Lib

variable {δ κ : Type} {w w' : World} {h : HiHandle δ} {u : UserSettings} {k : Key} {d : δ}
  {E E' : List (Stored δ)} {st : Stage δ} {r : Stage δ ⊕ Result δ} {i : MapOp δ}

/-! ## Calls and stages -/

/-- What holds of a shared table between two acts. -/
structure SharedRep (u : UserSettings) (t : SharedTable δ κ) (E : List (Stored δ)) : Prop where
  keeps : HoldsEntries u t.state t.world E
  stages : ∀ c i p, t.pending c = some (i, p) → p.Fits u ∧ p.Of i

theorem holdsEntries_hiCreate {s : HiInitSet} {w₀ : World} (hs : lhiSetSanityCheck s = .ok u)
    (he : sharedEngine u.collEng)
    (hcreate : (hiCreate s).run w₀ = .ok (.ok h, w)) : HoldsEntries u h w [] := by
  rcases he with he | he | he
  · rcases ((listEngine δ).runs_hiCreate hs (.inl he)).of_run hcreate with ⟨h₁, -⟩ | ⟨h', h₁, hu, hrep⟩
    · cases h₁
    cases h₁
    obtain ⟨os, hr, hc⟩ := hrep.rep
    exact ⟨hu, .inl ⟨he, os, hr, by rw [hc, List.flatten_replicate_nil]⟩⟩
  · have hall : Total (hiCreate s : Prog (Except Int (HiHandle δ))) w₀ fun r w' =>
        ∀ h, r = .ok h → HoldsEntries u h w' [] := by
      refine ArrayRep.runs_hiCreate hs he (lhiSetSanityCheck_slots hs he) ?_ ?_
      · intro w' _ _ h hr
        cases hr
      intro h' w' _ hu hr h heq
      cases heq
      refine ⟨hu, .inr (.inl ⟨he, _, hr, ?_, ?_⟩)⟩
      · intro l hl
        rw [List.eq_of_mem_replicate hl, List.length_replicate]
        exact ⟨0, (Nat.mul_one _).symm⟩
      rw [arrayContents, List.map_replicate, List.reduceOption_replicate_none,
        List.flatten_replicate_nil]
    exact hall.of_run hcreate h rfl
  · rcases ((rbtreeEngine δ).runs_hiCreate hs he).of_run hcreate with ⟨h₁, -⟩ | ⟨h', h₁, hu, hrep⟩
    · cases h₁
    cases h₁
    have hcount := (rbtreeEngine δ).count hrep.rep
    rw [List.flatten_replicate_nil] at hcount
    obtain ⟨ts, hr, hs, hc⟩ := hrep.rep
    refine ⟨hu, .inr (.inr ⟨he, ts, ?_, ?_, by rw [hc, List.flatten_replicate_nil]⟩)⟩
    · rwa [HiHandle.recount,
        show UInt32.ofNat ([] : List (Stored δ)).length = h.noObjects from hcount.symm]
    · rwa [← (congrArg UserSettings.keyCmp hu :)]

theorem SharedRep.start {s : HiInitSet} {w₀ : World} (hs : lhiSetSanityCheck s = .ok u)
    (he : sharedEngine u.collEng) (hcreate : (hiCreate s).run w₀ = .ok (.ok h, w)) :
    SharedRep u (idleTable h w : SharedTable δ κ) [] :=
  ⟨holdsEntries_hiCreate hs he hcreate, fun _ _ _ hp => by cases hp⟩

/-! ## One act -/

section Acts

variable [DecidableEq κ] {t v : SharedTable δ κ} {a : TableAct δ κ}

/-- What an act does to the entries. -/
def Acted (u : UserSettings) (t v : SharedTable δ κ) (E : List (Stored δ)) (a : TableAct δ κ)
    (E' : List (Stored δ)) : Prop :=
  match a with
  | .call _ _ => E' = E
  | .go _ i p r => p.Fits u ∧ p.Of i ∧
      p.Effect u (t.world.SomeFailed v.world) (p.SeesRoot t.state) E r E'

/-- An array table has a slot for the key that is to be linked. -/
def RoomFor (t : SharedTable δ κ) (a : TableAct δ κ) : Prop :=
  match a with
  | .go _ _ (.fill _ k _) _ => t.state.MakesRoom t.world k
  | _ => True

/-- A search in a tree starts at the root that it has read, and this is still the root. -/
def RootSeen (t : SharedTable δ κ) (a : TableAct δ κ) : Prop :=
  match a with
  | .go _ _ p _ => p.SeesRoot t.state
  | .call _ _ => True

instance (t : SharedTable δ κ) (a : TableAct δ κ) : Decidable (RootSeen t a) :=
  match a with
  | .go _ _ p _ => inferInstanceAs (Decidable (p.SeesRoot t.state))
  | .call _ _ => isTrue trivial

theorem SharedRep.step (hr : SharedRep u t E) (hok : KeysOk u) (hu : u.tableSize ≠ 0)
    (hauto : u.rehashAuto = 0) (hroom : RoomFor t a) (hstep : Step (tableProtocol δ) t a v) :
    t.world ≤ v.world ∧ ∃ E', SharedRep u v E' ∧ Acted u t v E a E' := by
  have hof := Stage.of_step (fun c i p hp => (hr.stages c i p hp).2) hstep
  have hother : ∀ c x, (∀ i p, x = some (i, p) → p.Fits u) →
      ∀ c' i p, Function.update t.pending c x c' = some (i, p) → p.Fits u := by
    intro c x hx c' i p hp
    by_cases hc : c' = c
    · rw [hc, Function.update_self] at hp
      exact hx i p hp
    · rw [Function.update_of_ne hc] at hp
      exact (hr.stages c' i p hp).1
  cases hstep with
  | @call c i h =>
    refine ⟨le_rfl, E, ⟨hr.keeps, fun c' i' p hp => ⟨hother c _ ?_ c' i' p hp, hof c' i' p hp⟩⟩, rfl⟩
    rintro i' p ⟨⟩
    trivial
  | @go c i p r s' w' h hrun =>
    obtain ⟨hfits, hmine⟩ := hr.stages c i p h
    have hfill : ∀ b k d, p = .fill b k d → t.state.MakesRoom t.world k := by
      rintro b k d rfl
      exact hroom
    have hleft := (hr.keeps.runs_advance hok hu hauto hfits hfill).of_run hrun
    obtain ⟨E', hkeeps, heffect⟩ := hleft
    refine ⟨(p.advance t.state).grows hrun, E',
      ⟨hkeeps, fun c' i' p' hp => ⟨hother c _ ?_ c' i' p' hp, hof c' i' p' hp⟩⟩, hfits, hmine, heffect⟩
    intro i' p' hp
    obtain ⟨q, hq, hp⟩ := Option.map_eq_some_iff.mp hp
    cases hp
    exact heffect.fits hr.keeps.engine p' (by simpa using hq)

end Acts

/-! ## Insertions of one key -/

/-- The entries with a key that is equal to `k`. -/
def sameKeys (cmp : KeyCmp) (k : Key) (E : List (Stored δ)) : Nat :=
  E.countP fun x => decide (cmp.same k x.key)

/-- What the act answers to an insertion of a key that is equal to `k`. -/
def insertAnswer? (cmp : KeyCmp) (k : Key) : TableAct δ κ → Option (Result δ)
  | .go _ (.insert k' _) _ (.inr q) => if cmp.same k k' then some q else none
  | _ => none

/-- The answers to the insertions of keys that are equal to `k`. -/
def insertAnswers (cmp : KeyCmp) (k : Key) (as : List (TableAct δ κ)) : List (Result δ) :=
  as.filterMap (insertAnswer? cmp k)

/-- The insertions of such keys that returned `SUCCESS`. -/
def successes (cmp : KeyCmp) (k : Key) (as : List (TableAct δ κ)) : Nat :=
  (insertAnswers cmp k as).countP fun q => decide (q.status = success)

section SameKeys

variable {cmp : KeyCmp} {x : Stored δ}

theorem sameKeys_perm (h : E'.Perm E) : sameKeys cmp k E' = sameKeys cmp k E := h.countP_eq _

theorem sameKeys_cons :
    sameKeys cmp k (x :: E) = sameKeys cmp k E + if cmp.same k x.key then 1 else 0 := by
  rw [sameKeys, List.countP_cons, ← sameKeys]
  by_cases h : cmp.same k x.key <;> simp [h]

/-- An entry that is added counts for the key of the insertion. -/
theorem Added.count_same {mayFail : Prop} {done : Stage δ ⊕ Result δ} {k' : Key}
    (h : Added mayFail E k' d done r E') (cmp : KeyCmp) (k : Key) :
    (r = done ∧ sameKeys cmp k E' = sameKeys cmp k E + if cmp.same k k' then 1 else 0) ∨
    (mayFail ∧ (∃ q : Result δ, r = .inr q ∧ q.Exhausted) ∧
      sameKeys cmp k E' = sameKeys cmp k E) := by
  refine h.imp ?_ fun h' => ⟨h'.1, h'.2.1, sameKeys_perm h'.2.2⟩
  rintro ⟨hr, x, hx, hp⟩
  refine ⟨hr, ?_⟩
  rw [sameKeys_perm hp, sameKeys_cons, show x.key = k' from congrArg Prod.fst hx]

end SameKeys

theorem successes_singleton {cmp : KeyCmp} {a : TableAct δ κ} : successes cmp k [a] =
    ((insertAnswer? cmp k a).toList.countP fun q => decide (q.status = success)) := by
  rw [successes, insertAnswers]
  cases h : insertAnswer? cmp k a <;> simp [h]

/-- What the act of a section adds to the insertions that left the stage `count`, and to those that
succeeded or reached it. -/
def leavesCount (cmp : KeyCmp) (k : Key) (a : TableAct δ κ) : Nat :=
  [a].countP (Act.leaves (atCount cmp k))

def reachesEnd (cmp : KeyCmp) (k : Key) (a : TableAct δ κ) : Nat :=
  successes cmp k [a] + [a].countP (Act.enters (tableProtocol δ) (atCount cmp k))

section Accounts

variable {cmp : KeyCmp} {c : κ} {k' : Key} {q : Result δ} {p : Stage δ}

theorem atCount_of_ne (h : st ≠ .count) (i : MapOp δ) : atCount cmp k i st = false := by
  cases i <;> cases st <;> first | rfl | exact (h rfl).elim

theorem leavesCount_ne (h : st ≠ .count) :
    leavesCount cmp k (.go c i st r : TableAct δ κ) = 0 := by
  simp [leavesCount, Act.leaves, atCount_of_ne h]

theorem reachesEnd_inl (h : p ≠ .count) :
    reachesEnd cmp k (.go c i st (.inl p) : TableAct δ κ) = 0 := by
  cases i <;> simp [reachesEnd, successes_singleton, insertAnswer?, Act.enters, atCount_of_ne h]

theorem reachesEnd_inr (h : ∀ k' d, i = .insert k' d → q.status ≠ success) :
    reachesEnd cmp k (.go c i st (.inr q) : TableAct δ κ) = 0 := by
  cases i with
  | insert k' d =>
    by_cases hs : cmp.same k k' <;>
      simp [reachesEnd, successes_singleton, insertAnswer?, Act.enters, hs, h k' d rfl]
  | get k' => simp [reachesEnd, successes_singleton, insertAnswer?, Act.enters]
  | remove k' => simp [reachesEnd, successes_singleton, insertAnswer?, Act.enters]

/-- An insertion that succeeds, or goes on to count its node. -/
theorem reachesEnd_insert (hr : r = .inl .count ∧ st ≠ .count ∨ r = .inr ⟨success, none⟩) :
    reachesEnd cmp k (.go c (.insert k' d) st r : TableAct δ κ) = if cmp.same k k' then 1 else 0 := by
  rcases hr with ⟨rfl, hst⟩ | rfl <;> by_cases hs : cmp.same k k'
  · simp [reachesEnd, successes_singleton, insertAnswer?, Act.enters, atCount_of_ne hst]
    simp [atCount, hs]
  · simp [reachesEnd, successes_singleton, insertAnswer?, Act.enters, atCount_of_ne hst]
    simp [atCount, hs]
  · simp [reachesEnd, successes_singleton, insertAnswer?, Act.enters, hs]
  · simp [reachesEnd, successes_singleton, insertAnswer?, Act.enters, hs]

theorem Added.balance {mayFail : Prop} {done : Stage δ ⊕ Result δ}
    (h : Added mayFail E k' d done r E') (hst : st ≠ .count)
    (hdone : done = .inl .count ∨ done = .inr ⟨success, none⟩) :
    sameKeys cmp k E ≤ sameKeys cmp k E' ∧
      sameKeys cmp k E' + leavesCount cmp k (.go c (.insert k' d) st r : TableAct δ κ) =
        sameKeys cmp k E + reachesEnd cmp k (.go c (.insert k' d) st r : TableAct δ κ) := by
  rw [leavesCount_ne hst]
  rcases h.count_same cmp k with ⟨rfl, hk⟩ | ⟨-, ⟨q, rfl, hq⟩, hk⟩
  · rw [hk, reachesEnd_insert (hdone.imp (fun h => ⟨h, hst⟩) id)]
    exact ⟨Nat.le_add_right _ _, rfl⟩
  · rw [hk, reachesEnd_inr fun _ _ _ => hq.1]
    exact ⟨le_rfl, rfl⟩

end Accounts

/-- What one section adds to the stored entries is what it adds to the accounts. -/
theorem Stage.Effect.balance {mayFail sees : Prop} {c : κ} (h : st.Effect u mayFail sees E r E')
    (hst : st.Of i) (heq : Equivalence u.keyCmp.same)
    (hrem : ∀ k', i = .remove k' → ¬ u.keyCmp.same k k') :
    sameKeys u.keyCmp k E ≤ sameKeys u.keyCmp k E' ∧
      sameKeys u.keyCmp k E' + leavesCount u.keyCmp k (.go c i st r : TableAct δ κ) =
        sameKeys u.keyCmp k E + reachesEnd u.keyCmp k (.go c i st r : TableAct δ κ) := by
  have hkeep : sameKeys u.keyCmp k E' = sameKeys u.keyCmp k E → st ≠ .count →
      reachesEnd u.keyCmp k (.go c i st r : TableAct δ κ) = 0 →
      sameKeys u.keyCmp k E ≤ sameKeys u.keyCmp k E' ∧
        sameKeys u.keyCmp k E' + leavesCount u.keyCmp k (.go c i st r : TableAct δ κ) =
          sameKeys u.keyCmp k E + reachesEnd u.keyCmp k (.go c i st r : TableAct δ κ) :=
    fun hsame hne hr => by
      rw [hsame, leavesCount_ne hne, hr]
      exact ⟨le_rfl, rfl⟩
  have hdup : ∀ k' d', i = .insert k' d' → (⟨hiErrDupkey, none⟩ : Result δ).status ≠ success :=
    fun _ _ _ => (by decide : hiErrDupkey ≠ success)
  cases st with
  | start op =>
    obtain rfl : op = i := hst
    cases op with
    | insert k' d =>
      obtain ⟨hp, rfl⟩ := h
      refine hkeep (sameKeys_perm hp) (by simp) ?_
      split
      · exact reachesEnd_inr hdup
      · exact reachesEnd_inl (by simp)
    | get k' =>
      obtain ⟨hp, hr⟩ := h
      refine hkeep (sameKeys_perm hp) (by simp) ?_
      split at hr
      · obtain ⟨root, rfl⟩ := hr
        exact reachesEnd_inl (by simp)
      · rw [hr]
        exact reachesEnd_inr (by simp)
    | remove k' =>
      rw [Stage.Effect] at h
      split at h
      · obtain ⟨hp, rfl⟩ := h
        exact hkeep (sameKeys_perm hp) (by simp) (reachesEnd_inr (by simp))
      · rename_i x hfind
        obtain ⟨hp, rfl⟩ := h
        -- An entry with another key has left.
        have hx : ¬ u.keyCmp.same k x.key := fun hs =>
          hrem k' rfl (heq.trans hs (heq.symm (KeyCmp.same_of_find hfind)))
        refine hkeep ?_ (by simp) ?_
        · rw [sameKeys_perm hp, sameKeys_cons, if_neg hx, Nat.add_zero]
        · split
          · exact reachesEnd_inl (by simp)
          · exact reachesEnd_inr (by simp)
  | seek tree root k' =>
    obtain ⟨hp, q, rfl, -⟩ := h
    obtain rfl : i = .get k' := hst
    exact hkeep (sameKeys_perm hp) (by simp) (reachesEnd_inr (by simp))
  | rehash k' d =>
    obtain ⟨hp, rfl⟩ := h
    exact hkeep (sameKeys_perm hp) (by simp) (reachesEnd_inl (by simp))
  | insert k' d =>
    obtain rfl : i = .insert k' d := hst
    have hst : Stage.insert k' d ≠ .count := by simp
    rw [Stage.Effect] at h
    split at h
    · exact h.balance hst (.inr rfl)
    · split at h
      · obtain ⟨hp, rfl⟩ := h
        exact hkeep (sameKeys_perm hp) (by simp) (reachesEnd_inr hdup)
      · split at h
        · obtain ⟨hp, rfl⟩ := h
          exact hkeep (sameKeys_perm hp) (by simp) (reachesEnd_inl (by simp))
        · exact h.balance hst (.inl rfl)
  | fill b k' d =>
    obtain rfl : i = .insert k' d := hst
    have hst : Stage.fill b k' d ≠ .count := by simp
    exact Added.balance h hst (.inr rfl)
  | count =>
    obtain ⟨hp, rfl⟩ := h
    obtain ⟨k', d, rfl⟩ := hst
    rw [sameKeys_perm hp, reachesEnd_insert (.inr rfl)]
    refine ⟨le_rfl, ?_⟩
    simp [leavesCount, Act.leaves, atCount]
  | uncount q =>
    obtain ⟨hp, rfl⟩ := h
    obtain ⟨k', rfl⟩ := hst
    exact hkeep (sameKeys_perm hp) (by simp) (reachesEnd_inr (by simp))

/-- An insertion succeeds, finds its key in the table, or runs out of memory. -/
theorem Stage.Effect.answered {mayFail sees : Prop} {q : Result δ}
    (h : st.Effect u mayFail sees E (.inr q) E') (hst : st.Of (.insert k d)) :
    q.status = success ∨ (q.status = hiErrDupkey ∧ u.keyCmp.find E k ≠ none) ∨ mayFail := by
  have hadded : ∀ {done : Stage δ ⊕ Result δ} {k' d'},
      done = .inl .count ∨ done = .inr ⟨success, none⟩ →
      Added mayFail E k' d' done (.inr q) E' → q.status = success ∨ mayFail := by
    rintro done k' d' hdone (⟨hr, -⟩ | ⟨hm, -⟩)
    · rcases hdone with rfl | rfl
      · cases hr
      · cases hr
        exact .inl rfl
    · exact .inr hm
  cases st with
  | start op =>
    obtain rfl : op = .insert k d := hst
    have hr := h.2
    split at hr
    · rename_i hfound
      cases hr
      exact .inr (.inl ⟨rfl, hfound.2⟩)
    · cases hr
  | seek tree root k' => cases hst
  | rehash k' d' => cases h.2
  | insert k' d' =>
    obtain ⟨rfl, rfl⟩ : k = k' ∧ d = d' := by simpa [Stage.Of] using hst
    rw [Stage.Effect] at h
    split at h
    · exact (hadded (.inr rfl) h).imp_right .inr
    · split at h
      · rename_i hfound
        cases h.2
        exact .inr (.inl ⟨rfl, hfound⟩)
      · split at h
        · cases h.2
        · exact (hadded (.inl rfl) h).imp_right .inr
  | fill b k' d' => exact (hadded (.inr rfl) h).imp_right .inr
  | count =>
    cases h.2
    exact .inl rfl
  | uncount q' =>
    obtain ⟨k', hk⟩ := hst
    cases hk

/-! ## Keys that are linked only where they are absent -/

/-- A section links a key only while the table does not have it. An array then has a slot for it. -/
def LinksAbsent (t : SharedTable δ κ) (a : TableAct δ κ) : Prop :=
  match a with
  | .go _ _ (.insert k _) _ => t.state.collEng = .list → Lacks t.state t.world k
  | .go _ _ (.fill _ k _) _ => Lacks t.state t.world k ∧ t.state.MakesRoom t.world k
  | _ => True

theorem LinksAbsent.room {t : SharedTable δ κ} {a : TableAct δ κ} (h : LinksAbsent t a) :
    RoomFor t a := by
  cases a with
  | call c i => trivial
  | go c i p r =>
    cases p with
    | fill b k d => exact h.2
    | _ => trivial

/-- A table lacks the keys that are not found among its entries. -/
theorem HoldsEntries.find_of_lacks (hk : HoldsEntries u h w E) (hok : KeysOk u) (hu : u.tableSize ≠ 0)
    (hl : Lacks h w k) : u.keyCmp.find E k = none := by
  obtain ⟨r, w', hrun, hanswer⟩ := total_iff.mp (hk.runs_hiGet hok hu (k := k))
  have hstatus : r.1.status = hiErrNokey := hl.of_run hrun
  cases hf : u.keyCmp.find E k with
  | none => rfl
  | some x =>
    rw [hanswer, hf] at hstatus
    exact absurd (show success = hiErrNokey from hstatus) (by decide)

/-- The entries stay pairwise different. -/
theorem Stage.Effect.distinct {mayFail sees : Prop} (h : st.Effect u mayFail sees E r E')
    (heq : Equivalence u.keyCmp.same) (hd : u.keyCmp.Distinct E)
    (hinsert : ∀ k d, st = .insert k d → u.collEng = .list → u.keyCmp.find E k = none)
    (hfill : ∀ b k d, st = .fill b k d → u.keyCmp.find E k = none) : u.keyCmp.Distinct E' := by
  have hkeep : E'.Perm E → u.keyCmp.Distinct E' := fun hp => hd.within heq (.of_perm hp)
  have hadded : ∀ {done : Stage δ ⊕ Result δ} {k d}, u.keyCmp.find E k = none →
      Added mayFail E k d done r E' → u.keyCmp.Distinct E' := by
    rintro done k d hf (⟨-, x, hx, hp⟩ | ⟨-, -, hp⟩)
    · obtain rfl : x.key = k := congrArg Prod.fst hx
      exact (hd.cons hf).within heq (.of_perm hp)
    · exact hkeep hp
  cases st with
  | start op =>
    cases op with
    | insert k d => exact hkeep h.1
    | get k => exact hkeep h.1
    | remove k =>
      rw [Stage.Effect] at h
      split at h
      · exact hkeep h.1
      · exact hd.within heq (.of_subperm ((List.subperm_cons_self).trans h.1.symm.subperm))
  | seek tree root k => exact hkeep h.1
  | rehash k d => exact hkeep h.1
  | insert k d =>
    rw [Stage.Effect] at h
    split at h
    · rename_i he
      exact hadded (hinsert k d rfl he) h
    · split at h
      · exact hkeep h.1
      · rename_i hf
        split at h
        · exact hkeep h.1
        · exact hadded (not_not.mp hf) h
  | fill b k d => exact hadded (hfill b k d rfl) h
  | count => exact hkeep h.1
  | uncount q => exact hkeep h.1

/-- The act does not start to remove a key that is equal to `k`. -/
def SparesKey (cmp : KeyCmp) (k : Key) (a : TableAct δ κ) : Prop :=
  ∀ c k', a = .call c (.remove k') → ¬ cmp.same k k'

/-- No call with a key that is equal to `k` is in progress. -/
def QuietKey (cmp : KeyCmp) (k : Key) (t : SharedTable δ κ) : Prop :=
  ∀ c i p, t.pending c = some (i, p) → ¬ cmp.same k i.key

section Runs

variable {t v : SharedTable δ κ} {a : TableAct δ κ} {bs : List (TableAct δ κ)}

theorem Stage.Effect.distinct_of_links {mayFail sees : Prop} {c : κ}
    (h : st.Effect u mayFail sees E r E') (hr : SharedRep u t E) (hok : KeysOk u) (hu : u.tableSize ≠ 0)
    (hl : LinksAbsent t (.go c i st r)) (hd : u.keyCmp.Distinct E) :
    u.keyCmp.Distinct E' := by
  refine h.distinct hok.equivalence hd ?_ ?_
  · rintro k d rfl he
    have he' : t.state.collEng = .list := (congrArg UserSettings.collEng hr.keeps.settings :).trans he
    exact hr.keeps.find_of_lacks hok hu (hl he')
  · rintro b k d rfl
    exact hr.keeps.find_of_lacks hok hu hl.1

theorem successes_concat {cmp : KeyCmp} :
    successes cmp k (bs ++ [a]) = successes cmp k bs + successes cmp k [a] := by
  rw [successes, successes, successes, insertAnswers, List.filterMap_append, List.countP_append]
  rfl

theorem insertAnswers_concat {cmp : KeyCmp} {q : Result δ} :
    q ∈ insertAnswers cmp k (bs ++ [a]) ↔
      q ∈ insertAnswers cmp k bs ∨ insertAnswer? cmp k a = some q := by
  rw [insertAnswers, List.filterMap_append, List.mem_append]
  refine or_congr Iff.rfl ?_
  simp

theorem sameKeys_ne_zero {cmp : KeyCmp} (heq : Equivalence cmp.same) {k' : Key} (hs : cmp.same k k')
    (hf : cmp.find E k' ≠ none) : sameKeys cmp k E ≠ 0 := by
  obtain ⟨x, hx⟩ := Option.ne_none_iff_exists'.mp hf
  refine (List.countP_pos_iff.mpr ⟨x, KeyCmp.mem_of_find hx, decide_eq_true ?_⟩).ne'
  exact heq.trans hs (KeyCmp.same_of_find hx)

theorem sameKeys_le_one {cmp : KeyCmp} (heq : Equivalence cmp.same) (hd : cmp.Distinct E) :
    sameKeys cmp k E ≤ 1 := by
  induction E with
  | nil => exact Nat.zero_le _
  | cons x E ih =>
    obtain ⟨hx, hE⟩ := List.pairwise_cons.mp hd
    rw [sameKeys_cons]
    split
    · rename_i hs
      have hnone : sameKeys cmp k E = 0 := List.countP_eq_zero.mpr fun y hy => by
        simpa using fun hk => hx y hy (heq.trans (heq.symm hs) hk)
      rw [hnone]
    · exact ih hE

theorem QuietKey.isAt {cmp : KeyCmp} (h : QuietKey cmp k t) (c : κ) :
    t.isAt (atCount cmp k) c = false := by
  rw [Shared.isAt, Option.any_eq_false]
  rintro ⟨i, p⟩ hp
  by_cases hstage : p = .count
  · cases i with
    | insert k' d =>
      rw [hstage]
      exact decide_eq_false (h c _ _ hp)
    | get k' => rfl
    | remove k' => rfl
  · exact atCount_of_ne hstage i

variable [DecidableEq κ]

/-- What an act does to a shared table that has no key twice. -/
theorem SharedRep.distinct_step (hr : SharedRep u t E) (hd : u.keyCmp.Distinct E) (hok : KeysOk u)
    (hu : u.tableSize ≠ 0) (hauto : u.rehashAuto = 0) (hl : LinksAbsent t a)
    (hstep : Step (tableProtocol δ) t a v) :
    t.world ≤ v.world ∧ ∃ E', SharedRep u v E' ∧ u.keyCmp.Distinct E' ∧
      Acted u t v E a E' := by
  obtain ⟨hw, E', hr', hact⟩ := hr.step hok hu hauto hl.room hstep
  refine ⟨hw, E', hr', ?_, hact⟩
  cases a with
  | call c i =>
    obtain rfl : E' = E := hact
    exact hd
  | go c i p r => exact hact.2.2.distinct_of_links hr hok hu hl hd

/-- What holds after the acts `bs` that have removed no key that is equal to `k`. -/
structure OneKey (u : UserSettings) (k : Key) (w₀ : World) (bs : List (TableAct δ κ))
    (v : SharedTable δ κ) (E : List (Stored δ)) : Prop where
  rep : SharedRep u v E
  distinct : u.keyCmp.Distinct E
  world : w₀ ≤ v.world
  spared : ∀ c k' p, v.pending c = some (.remove k', p) → ¬ u.keyCmp.same k k'
  account : sameKeys u.keyCmp k E + bs.countP (Act.leaves (atCount u.keyCmp k)) =
    successes u.keyCmp k bs + bs.countP (Act.enters (tableProtocol δ) (atCount u.keyCmp k))
  answered : w₀.AllocsSucceed → ∀ q ∈ insertAnswers u.keyCmp k bs,
    q.status = success ∨ (q.status = hiErrDupkey ∧ sameKeys u.keyCmp k E ≠ 0)

theorem OneKey.step {w₀ : World} (ho : OneKey u k w₀ bs t E) (hok : KeysOk u) (hu : u.tableSize ≠ 0)
    (hauto : u.rehashAuto = 0) (hl : LinksAbsent t a) (hsp : SparesKey u.keyCmp k a)
    (hstep : Step (tableProtocol δ) t a v) : ∃ E', OneKey u k w₀ (bs ++ [a]) v E' := by
  obtain ⟨hw, E', hr', hd', hact⟩ := ho.rep.distinct_step ho.distinct hok hu hauto hl hstep
  have hspared : ∀ c k' p, v.pending c = some (.remove k', p) → ¬ u.keyCmp.same k k' := by
    intro c k' p hp
    rcases hstep.pending_call hp with rfl | ⟨p', hp'⟩
    · exact hsp c k' rfl
    · exact ho.spared c k' p' hp'
  cases hstep with
  | @call c i h =>
    obtain rfl : E' = E := hact
    have hstage : (Stage.start i : Stage δ) ≠ .count := by simp
    refine ⟨E', hr', hd', ho.world.trans hw, hspared, ?_, ?_⟩
    · simpa [successes_concat, successes_singleton, insertAnswer?, Act.leaves, Act.enters,
        tableProtocol, atCount_of_ne hstage] using ho.account
    · intro hw₀ q hq
      exact ho.answered hw₀ q ((insertAnswers_concat.mp hq).resolve_right (by simp [insertAnswer?]))
  | @go c i p r s' w' h hrun =>
    obtain ⟨-, hof, heffect⟩ := hact
    have hrem : ∀ k', i = .remove k' → ¬ u.keyCmp.same k k' := by
      rintro k' rfl
      exact ho.spared c k' p h
    obtain ⟨hle, hbalance⟩ := heffect.balance (k := k) (c := c) hof hok.equivalence hrem
    refine ⟨E', hr', hd', ho.world.trans hw, hspared, ?_, ?_⟩
    · have haccount := ho.account
      rw [leavesCount, reachesEnd] at hbalance
      rw [List.countP_append, List.countP_append, successes_concat]
      omega
    · intro hw₀ q hq
      rcases insertAnswers_concat.mp hq with hq | hq
      · refine (ho.answered hw₀ q hq).imp id fun h' => ⟨h'.1, ?_⟩
        have := h'.2
        omega
      · cases i with
        | insert k' d =>
          cases r with
          | inl p' => cases hq
          | inr q' =>
            rw [insertAnswer?] at hq
            split at hq
            · rename_i hs
              cases hq
              rcases heffect.answered hof with hsuc | ⟨hdup, hf⟩ | hm
              · exact .inl hsuc
              · refine .inr ⟨hdup, ?_⟩
                have := sameKeys_ne_zero hok.equivalence hs hf
                omega
              · exact (hm.not_allocsSucceed (hw₀.mono ho.world)).elim
            · cases hq
        | get k' => cases r <;> cases hq
        | remove k' => cases r <;> cases hq

/-- The table stores no key twice. -/
theorem shared_keys_distinct {s : HiInitSet} {w₀ : World} {as : List (TableAct δ κ)}
    (hs : lhiSetSanityCheck s = .ok u) (he : sharedEngine u.collEng) (hauto : u.rehashAuto = 0)
    (hok : KeysOk u) (hcreate : (hiCreate s).run w₀ = .ok (.ok h, w))
    (hrun : Run (tableProtocol δ) (fun _ => LinksAbsent) (idleTable h w) as t) :
    (∃ E, HoldsEntries u t.state t.world E ∧ u.keyCmp.Distinct E) ∧
    ∀ k, Lacks t.state t.world k → QuietKey u.keyCmp k t → ∀ bs v,
      Run (tableProtocol δ) (fun _ t a => LinksAbsent t a ∧ SparesKey u.keyCmp k a) t bs v →
      successes u.keyCmp k bs ≤ 1 ∧
      (t.world.AllocsSucceed → QuietKey u.keyCmp k v → insertAnswers u.keyCmp k bs ≠ [] →
        successes u.keyCmp k bs = 1 ∧
        ∀ q ∈ insertAnswers u.keyCmp k bs, q.status = success ∨ q.status = hiErrDupkey) := by
  have hu : u.tableSize ≠ 0 := (lhiSetSanityCheck_ok hs).1
  obtain ⟨E, hr, hd⟩ : ∃ E, SharedRep u t E ∧ u.keyCmp.Distinct E := by
    refine hrun.invariant (I := fun _ t => ∃ E, SharedRep u t E ∧ u.keyCmp.Distinct E)
      ⟨[], .start hs he hcreate, .nil⟩ ?_
    rintro as t a v ⟨E, hr, hd⟩ hl hstep
    obtain ⟨-, E', hr', hd', -⟩ := hr.distinct_step hd hok hu hauto hl hstep
    exact ⟨E', hr', hd'⟩
  refine ⟨⟨E, hr.keeps, hd⟩, fun k hlacks hquiet bs v hrun' => ?_⟩
  have hnone := hr.keeps.find_of_lacks hok hu hlacks
  have hzero : sameKeys u.keyCmp k E = 0 := List.countP_eq_zero.mpr fun x hx => by
    simpa using KeyCmp.find_eq_none.mp hnone x hx
  obtain ⟨E', ho⟩ : ∃ E', OneKey u k t.world bs v E' := by
    refine hrun'.invariant (I := fun bs v => ∃ E', OneKey u k t.world bs v E')
      ⟨E, hr, hd, le_rfl, ?_, ?_, ?_⟩ ?_
    · exact fun c k' p hp => hquiet c _ p hp
    · simp [hzero, successes, insertAnswers]
    · simp [insertAnswers]
    · rintro bs v a v' ⟨E', ho⟩ ⟨hl, hsp⟩ hstep
      exact ho.step hok hu hauto hl hsp hstep
  have hflow := hrun'.leaves_le (q := atCount u.keyCmp k) hquiet.isAt
  have hle : sameKeys u.keyCmp k E' ≤ 1 := sameKeys_le_one hok.equivalence ho.distinct
  have haccount := ho.account
  refine ⟨by omega, fun hw hquiet' hne => ?_⟩
  have hanswers := ho.answered hw
  refine ⟨?_, fun q hq => (hanswers q hq).imp_right And.left⟩
  have hleft := hrun'.leaves_eq (q := atCount u.keyCmp k) hquiet.isAt hquiet'.isAt
  obtain ⟨q, hq⟩ := List.exists_mem_of_ne_nil _ hne
  rcases hanswers q hq with hsuc | ⟨-, hsame⟩
  · have : 0 < successes u.keyCmp k bs := List.countP_pos_iff.mpr ⟨q, hq, decide_eq_true hsuc⟩
    omega
  · omega

end Runs

/-! ## Links after a lookup -/

/-- An insertion that has not found its key would still not find it. -/
def Stage.Ready (u : UserSettings) (E : List (Stored δ)) : Stage δ → Prop
  | rehash k _ | insert k _ => u.collEng = .list → u.keyCmp.find E k = none
  | fill _ k _ => u.keyCmp.find E k = none
  | _ => True

theorem KeyCmp.find_none_perm {cmp : KeyCmp} (hp : E'.Perm E) (h : cmp.find E k = none) :
    cmp.find E' k = none :=
  KeyCmp.find_eq_none.mpr fun x hx => KeyCmp.find_eq_none.mp h x (hp.mem_iff.mp hx)

theorem Stage.Effect.ready {mayFail sees : Prop} (h : st.Effect u mayFail sees E r E')
    (hr : st.Ready u E) :
    ∀ p, r = .inl p → p.Ready u E' := by
  rintro p rfl
  cases st with
  | start op =>
    cases op with
    | insert k d =>
      have hnext := h.2
      split at hnext
      · cases hnext
      · rename_i hno
        cases hnext
        intro he
        exact KeyCmp.find_none_perm h.1 (not_not.mp fun hf => hno ⟨he, hf⟩)
    | get k =>
      have hnext := h.2
      split at hnext
      · obtain ⟨root, hnext⟩ := hnext
        cases hnext
        trivial
      · cases hnext
    | remove k =>
      rw [Stage.Effect] at h
      split at h
      · cases h.2
      · have hnext := h.2
        split at hnext
        · cases hnext
          trivial
        · cases hnext
  | seek tree root k =>
    obtain ⟨-, q, hnext, -⟩ := h
    cases hnext
  | rehash k d =>
    cases h.2
    exact fun he => KeyCmp.find_none_perm h.1 (hr he)
  | insert k d =>
    rw [Stage.Effect] at h
    split at h
    · rcases h with ⟨hnext, -⟩ | ⟨-, ⟨q, hnext, -⟩, -⟩ <;> cases hnext
    · split at h
      · cases h.2
      · rename_i hf
        split at h
        · cases h.2
          exact KeyCmp.find_none_perm h.1 (not_not.mp hf)
        · rcases h with ⟨hnext, -⟩ | ⟨-, ⟨q, hnext, -⟩, -⟩ <;> cases hnext
          trivial
  | fill b k d => rcases h with ⟨hnext, -⟩ | ⟨-, ⟨q, hnext, -⟩, -⟩ <;> cases hnext
  | count => cases h.2
  | uncount q => cases h.2

/-- A key that is absent stays so, unless it is linked. -/
theorem Stage.Effect.absent {mayFail sees : Prop} (h : st.Effect u mayFail sees E r E')
    (hf : u.keyCmp.find E k = none)
    (hinsert : ∀ k' d, st = .insert k' d → u.collEng ≠ .array → ¬ u.keyCmp.same k k')
    (hfill : ∀ b k' d, st = .fill b k' d → ¬ u.keyCmp.same k k') : u.keyCmp.find E' k = none := by
  have hadded : ∀ {done : Stage δ ⊕ Result δ} {k' d}, ¬ u.keyCmp.same k k' →
      Added mayFail E k' d done r E' → u.keyCmp.find E' k = none := by
    rintro done k' d hne (⟨-, x, hx, hp⟩ | ⟨-, -, hp⟩)
    · refine KeyCmp.find_none_perm hp (KeyCmp.find_eq_none.mpr fun y hy => ?_)
      rcases List.mem_cons.mp hy with rfl | hy
      · rwa [show y.key = k' from congrArg Prod.fst hx]
      · exact KeyCmp.find_eq_none.mp hf y hy
    · exact KeyCmp.find_none_perm hp hf
  cases st with
  | start op =>
    cases op with
    | insert k' d => exact KeyCmp.find_none_perm h.1 hf
    | get k' => exact KeyCmp.find_none_perm h.1 hf
    | remove k' =>
      rw [Stage.Effect] at h
      split at h
      · exact KeyCmp.find_none_perm h.1 hf
      · refine KeyCmp.find_eq_none.mpr fun y hy => ?_
        exact KeyCmp.find_eq_none.mp hf y (h.1.mem_iff.mpr (List.mem_cons_of_mem _ hy))
  | seek tree root k' => exact KeyCmp.find_none_perm h.1 hf
  | rehash k' d => exact KeyCmp.find_none_perm h.1 hf
  | insert k' d =>
    rw [Stage.Effect] at h
    split at h
    · rename_i he
      exact hadded (hinsert k' d rfl (by rw [he]; decide)) h
    · split at h
      · exact KeyCmp.find_none_perm h.1 hf
      · split at h
        · exact KeyCmp.find_none_perm h.1 hf
        · rename_i ha
          exact hadded (hinsert k' d rfl ha) h
  | fill b k' d => exact hadded (hfill b k' d rfl) h
  | count => exact KeyCmp.find_none_perm h.1 hf
  | uncount q => exact KeyCmp.find_none_perm h.1 hf

/-- The call has looked for a key that is equal to `k` and not found it, and is to link it. -/
def lookedFor (u : UserSettings) (k : Key) : MapOp δ → Stage δ → Bool
  | _, .rehash k' _ | _, .insert k' _ => decide (u.collEng = .list ∧ u.keyCmp.same k k')
  | _, .fill _ k' _ => decide (u.keyCmp.same k k')
  | _, _ => false

/-- No client links a key between the lookup and the link of an equal key by another client. -/
def LinksApart (u : UserSettings) (t : SharedTable δ κ) (a : TableAct δ κ) : Prop :=
  match a with
  | .go c _ (.insert k _) _ => u.collEng = .list → ∀ c', c' ≠ c → t.isAt (lookedFor u k) c' = false
  | .go c _ (.fill _ k _) _ => ∀ c', c' ≠ c → t.isAt (lookedFor u k) c' = false
  | _ => True

section LinksApart

variable [DecidableEq κ] {t v : SharedTable δ κ} {a : TableAct δ κ} {as : List (TableAct δ κ)}

/-- No call finds the key that it is to link. -/
def AllReady (u : UserSettings) (t : SharedTable δ κ) (E : List (Stored δ)) : Prop :=
  ∀ c i p, t.pending c = some (i, p) → p.Ready u E

omit [DecidableEq κ] in
/-- The act of another client. -/
theorem Stage.Ready.other {c c' : κ} {p : Stage δ} {q : Stage δ ⊕ Result δ} {j : MapOp δ}
    {mayFail sees : Prop} (hp : st.Ready u E) (hfits : st.Fits u)
    (hpending : t.pending c = some (i, st)) (heq : Equivalence u.keyCmp.same)
    (hl : LinksApart u t (.go c' j p q)) (hc : c ≠ c') (h : p.Effect u mayFail sees E q E') :
    st.Ready u E' := by
  have hapart : ∀ {k k'}, t.isAt (lookedFor u k') c = false →
      (u.keyCmp.same k' k → lookedFor u k' i st = true) → ¬ u.keyCmp.same k k' := by
    intro k k' hno hyes hs
    rw [Shared.isAt, hpending] at hno
    exact absurd (hyes (heq.symm hs)) (by simpa using hno)
  have hlist : ∀ {k}, u.collEng = .list → (∀ {k'}, u.keyCmp.same k' k → lookedFor u k' i st = true) →
      u.keyCmp.find E k = none → u.keyCmp.find E' k = none := by
    intro k he hlooked hf
    refine h.absent hf ?_ ?_
    · rintro k' d rfl -
      exact hapart (hl he c hc) hlooked
    · rintro b k' d rfl
      exact hapart (hl c hc) hlooked
  cases st with
  | rehash k d => exact fun he => hlist he (fun hs => decide_eq_true ⟨he, hs⟩) (hp he)
  | insert k d => exact fun he => hlist he (fun hs => decide_eq_true ⟨he, hs⟩) (hp he)
  | fill b k d =>
    refine h.absent hp ?_ ?_
    · rintro k' d' rfl ha
      exact (ha hfits.1).elim
    · rintro b' k' d' rfl
      exact hapart (hl c hc) decide_eq_true
  | _ => trivial

theorem AllReady.step (hr : SharedRep u t E) (hready : AllReady u t E) (hok : KeysOk u)
    (hl : LinksApart u t a) (hstep : Step (tableProtocol δ) t a v) (hact : Acted u t v E a E') :
    AllReady u v E' := by
  intro c i p hp
  by_cases hc : c = a.client
  · subst hc
    rw [hstep.pending_self] at hp
    cases hstep with
    | call h =>
      cases hp
      trivial
    | @go c i' p' r s' w' h hrun =>
      obtain ⟨q, hq, hp⟩ := Option.map_eq_some_iff.mp hp
      cases hp
      exact hact.2.2.ready (hready c i p' h) p (by simpa using hq)
  · rw [hstep.pending_other hc] at hp
    cases a with
    | call c' j =>
      obtain rfl : E' = E := hact
      exact hready c i p hp
    | go c' j p' q =>
      exact (hready c i p hp).other (hr.stages c i p hp).1 hp hok.equivalence hl hc hact.2.2

/-- A call that finds no key to link links an absent one. -/
theorem SharedRep.linksAbsent (hr : SharedRep u t E) (hready : AllReady u t E) (hok : KeysOk u)
    (hu : u.tableSize ≠ 0) (hroom : RoomFor t a) (hstep : Step (tableProtocol δ) t a v) :
    LinksAbsent t a := by
  have hlacks : ∀ {k}, u.keyCmp.find E k = none → Lacks t.state t.world k := by
    intro k hf
    refine ((hr.keeps.runs_hiGet hok hu).mono_fault fun _ h => h.elim).imp fun q _ hq => ?_
    rw [hq, hf]
    rfl
  cases hstep with
  | call _ => trivial
  | @go c i p r s' w' h hrun =>
    have hp := hready c i p h
    cases p with
    | insert k d =>
      exact fun he => hlacks (hp ((congrArg UserSettings.collEng hr.keeps.settings :).symm.trans he))
    | fill b k d => exact ⟨hlacks hp, hroom⟩
    | _ => trivial

/-- When nobody links an equal key between the lookup and the link of a call, every key that is
linked is absent. -/
theorem run_linksAbsent {s : HiInitSet} {w₀ : World} (hs : lhiSetSanityCheck s = .ok u)
    (he : sharedEngine u.collEng) (hauto : u.rehashAuto = 0) (hok : KeysOk u)
    (hcreate : (hiCreate s).run w₀ = .ok (.ok h, w))
    (hrun : Run (tableProtocol δ) (fun _ t a => LinksApart u t a ∧ RoomFor t a) (idleTable h w) as t) :
    Run (tableProtocol δ) (fun _ => LinksAbsent) (idleTable h w) as t := by
  have hu : u.tableSize ≠ 0 := (lhiSetSanityCheck_ok hs).1
  suffices hboth : Run (tableProtocol δ) (fun _ => LinksAbsent) (idleTable h w) as t ∧
      ∃ E, SharedRep u t E ∧ AllReady u t E from hboth.1
  induction hrun with
  | nil => exact ⟨.nil, [], .start hs he hcreate, nofun⟩
  | snoc hrun hact hstep ih =>
    obtain ⟨hrun', E, hr, hready⟩ := ih
    obtain ⟨-, E', hr', heffect⟩ := hr.step hok hu hauto hact.2 hstep
    exact ⟨hrun'.snoc (hr.linksAbsent hready hok hu hact.2 hstep) hstep, E', hr',
      hready.step hr hok hact.1 hstep heffect⟩

end LinksApart

/-! ## Two clients and one key -/

instance : Decidable (Lacks h w k) := inferInstanceAs (Decidable (Runs _ _ _ _))

theorem oneTree_contract : KeyContract ⟨0, lhiHashDumb1⟩ hiCmpUint16T oneTree.collEng :=
  ⟨orderOn_hiCmpUint16T.equivalence, fun _ _ _ => rfl, fun _ => orderOn_hiCmpUint16T⟩

theorem oneTree_settings : ∃ u : UserSettings, lhiSetSanityCheck oneTree = .ok u ∧
    u.collEng = .rbtree ∧ u.rehashAuto = 0 ∧ u.hashFunc = ⟨0, lhiHashDumb1⟩ ∧
    u.keyCmp = hiCmpUint16T := ⟨_, rfl, rfl, rfl, rfl, rfl⟩

/-- A test for `LinksAbsent` and `SparesKey` that array tables and removals do not pass. -/
def linksAbsent (t : SharedTable δ κ) (a : TableAct δ κ) : Bool :=
  match a with
  | .call _ (.remove _) => false
  | .go _ _ (.insert k _) _ => decide (Lacks t.state t.world k)
  | .go _ _ (.fill _ _ _) _ => false
  | _ => true

theorem linksAbsent_sound {t : SharedTable δ κ} {a : TableAct δ κ} (cmp : KeyCmp) (k : Key)
    (h : linksAbsent t a = true) : LinksAbsent t a ∧ SparesKey cmp k a := by
  cases a with
  | call c i =>
    refine ⟨trivial, ?_⟩
    rintro c' k' heq
    cases heq
    cases h
  | go c i p r =>
    refine ⟨?_, fun _ _ heq => by cases heq⟩
    cases p with
    | insert k d => exact fun _ => of_decide_eq_true h
    | fill b k d => cases h
    | _ => trivial

/-- The second client has called before the first one links the key. -/
theorem shared_keys_distinct_two :
    ∃ (h : HiHandle String) (w : World) (bs : List (TableAct String Bool))
      (v : SharedTable String Bool),
      (hiCreate byteList).run (World.start fun _ _ => 0) = .ok (.ok h, w) ∧
      Run (tableProtocol String)
        (fun _ t a => LinksAbsent t a ∧ SparesKey cmpBytes ⟨[1, 0], by decide⟩ a)
        (idleTable h w) bs v ∧
      (answers false bs).map (fun q => q.2.status) = [success] ∧
      (answers true bs).map (fun q => q.2.status) = [hiErrDupkey] ∧
      successes cmpBytes ⟨[1, 0], by decide⟩ bs = 1 := by
  obtain ⟨u, hs, -, heng, hf, hcmp⟩ := byteList_settings.check
  obtain ⟨h, w, bs, v, hcreate, hfollow, hw, hlacks, ⟨hidle₀, hidle₁⟩, hlen, h₀, h₁⟩ :
      ∃ (h : HiHandle String) (w : World) (bs : List (TableAct String Bool))
        (v : SharedTable String Bool),
      (hiCreate byteList).run (World.start fun _ _ => 0) = .ok (.ok h, w) ∧
      (tableProtocol String).follow (fun _ t a => linksAbsent t a)
        [(false, some (.insert ⟨[1, 0], by decide⟩ "one")), (false, none),
          (true, some (.insert ⟨[1, 0], by decide⟩ "two")), (false, none), (false, none),
          (true, none)] [] (idleTable h w) = some (bs, v) ∧
      w.AllocsSucceed ∧ decide (Lacks h w ⟨[1, 0], by decide⟩) = true ∧
      (v.pending false = none ∧ v.pending true = none) ∧
      (insertAnswers cmpBytes ⟨[1, 0], by decide⟩ bs).length = 2 ∧
      (answers false bs).map (fun q => q.2.status) = [success] ∧
      (answers true bs).map (fun q => q.2.status) = [hiErrDupkey] :=
    ⟨_, _, _, _, rfl, rfl, fun _ => ⟨_, rfl⟩, rfl, ⟨rfl, rfl⟩, rfl, rfl, rfl⟩
  have hrun := (Run.nil.of_follow hfollow).imp fun _ _ _ =>
    linksAbsent_sound cmpBytes ⟨[1, 0], by decide⟩
  have hauto : u.rehashAuto = 0 := (lhiSetSanityCheck_ok hs).2.2.2.1
  have hok : KeysOk u := by
    rw [KeysOk, hf, hcmp, heng]
    exact byteList_contract
  have hstart : Run (tableProtocol String) (fun _ => LinksAbsent)
      (idleTable h w : SharedTable String Bool) [] (idleTable h w) := .nil
  have hdistinct := shared_keys_distinct hs (.inl heng) hauto hok hcreate hstart
  rw [hcmp] at hdistinct
  have hne : insertAnswers cmpBytes ⟨[1, 0], by decide⟩ bs ≠ [] :=
    List.ne_nil_of_length_eq_add_one hlen
  have hend : ∀ c, v.pending c = none := fun c => by
    cases c
    · exact hidle₀
    · exact hidle₁
  have hquiet : QuietKey cmpBytes ⟨[1, 0], by decide⟩ (idleTable h w : SharedTable String Bool) :=
    fun _ _ _ hp => by cases hp
  have hone := (hdistinct.2 _ (of_decide_eq_true hlacks) hquiet bs v hrun).2 hw ?_ hne
  · exact ⟨h, w, bs, v, hcreate, hrun, h₀, h₁, hone.1⟩
  · intro c i p hp
    rw [hend] at hp
    cases hp

/-- Two clients insert one key, and both succeed; then the key is removed twice. In a list and in an
array, both have looked for the key before one of them links it. -/
theorem shared_keys_doubled :
    (∃ (h : HiHandle String) (w : World) (as : List (TableAct String Bool))
      (t : SharedTable String Bool),
      (hiCreate byteList).run (World.start fun _ _ => 0) = .ok (.ok h, w) ∧
      Run (tableProtocol String) (fun _ _ _ => True) (idleTable h w) as t ∧
      successes cmpBytes ⟨[1, 0], by decide⟩ as = 2 ∧
      (answers false as).map (fun q => q.2.status) = [success, success, success]) ∧
    ∃ (h : HiHandle String) (w : World) (as : List (TableAct String Bool))
      (t : SharedTable String Bool),
      (hiCreate (oneArray 2)).run (World.start fun _ _ => 0) = .ok (.ok h, w) ∧
      Run (tableProtocol String) (fun _ _ _ => True) (idleTable h w) as t ∧
      successes hiCmpUint16T ⟨[1, 0], by decide⟩ as = 2 ∧
      (answers false as).map (fun q => q.2.status) = [success, success, success] := by
  refine ⟨?_, ?_⟩
  · obtain ⟨h, w, as, t, hcreate, hfollow, htwo, hthree⟩ :
        ∃ (h : HiHandle String) (w : World) (as : List (TableAct String Bool))
          (t : SharedTable String Bool),
        (hiCreate byteList).run (World.start fun _ _ => 0) = .ok (.ok h, w) ∧
        (tableProtocol String).follow (fun _ _ _ => true)
          [(false, some (.insert ⟨[1, 0], by decide⟩ "one")),
            (true, some (.insert ⟨[1, 0], by decide⟩ "two")), (false, none), (true, none),
            (false, none), (true, none), (false, none), (true, none),
            (false, some (.remove ⟨[1, 0], by decide⟩)), (false, none),
            (false, some (.remove ⟨[1, 0], by decide⟩)), (false, none)] [] (idleTable h w) =
          some (as, t) ∧
        successes cmpBytes ⟨[1, 0], by decide⟩ as = 2 ∧
        (answers false as).map (fun q => q.2.status) = [success, success, success] :=
      ⟨_, _, _, _, rfl, rfl, rfl, rfl⟩
    exact ⟨h, w, as, t, hcreate, (Run.nil.of_follow hfollow).imp fun _ _ _ _ => trivial, htwo, hthree⟩
  · obtain ⟨h, w, as, t, hcreate, hfollow, htwo, hthree⟩ :
        ∃ (h : HiHandle String) (w : World) (as : List (TableAct String Bool))
          (t : SharedTable String Bool),
        (hiCreate (oneArray 2)).run (World.start fun _ _ => 0) = .ok (.ok h, w) ∧
        (tableProtocol String).follow (fun _ _ _ => true)
          [(false, some (.insert ⟨[1, 0], by decide⟩ "one")),
            (true, some (.insert ⟨[1, 0], by decide⟩ "two")), (false, none), (true, none),
            (false, none), (true, none), (false, none), (true, none), (false, none), (true, none),
            (false, some (.remove ⟨[1, 0], by decide⟩)), (false, none),
            (false, some (.remove ⟨[1, 0], by decide⟩)), (false, none)] [] (idleTable h w) =
          some (as, t) ∧
        successes hiCmpUint16T ⟨[1, 0], by decide⟩ as = 2 ∧
        (answers false as).map (fun q => q.2.status) = [success, success, success] :=
      ⟨_, _, _, _, rfl, rfl, rfl, rfl⟩
    exact ⟨h, w, as, t, hcreate, (Run.nil.of_follow hfollow).imp fun _ _ _ _ => trivial, htwo, hthree⟩

end Hashish
