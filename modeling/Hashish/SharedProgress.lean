import Hashish.KeyRaces
import Hashish.SectionLocks

/-!
# Calls in progress return

A client may stop anywhere between two sections of its call, and others go on. In a list or a tree
it then holds no lock, and whatever the others have done, its call is not stuck: the next sections
run without a fault, and after at most four the call returns. The one exception is a search in a
tree that has another root by now.

* `shared_progress`: in every reached state no lock is held, and each call in progress returns
  when it goes on.
* `stale_root_read_freed`: a search that goes on from a node that was freed.
-/

namespace Hashish

open Hashish.Lib

variable {δ κ : Type} {w : World} {h : HiHandle δ} {u : UserSettings} {E : List (Stored δ)}
  {st : Stage δ} {i : MapOp δ}

/-- The engines whose insertions release the mutex also when memory is exhausted. -/
def unlockingEngine (e : CollEng) : Prop := e = .list ∨ e = .rbtree

theorem unlockingEngine.shared {e : CollEng} (he : unlockingEngine e) : sharedEngine e :=
  he.imp_right .inr

theorem unlockingEngine.ne_array {e : CollEng} (he : unlockingEngine e) : e ≠ .array := by
  rcases he with rfl | rfl <;> decide

/-! ## Locks -/

theorem OneLock.held {w' : World} (hone : OneLock h w w') (he : h.collEng ≠ .array)
    (hw : w.held = some []) : w'.held = some [] := by
  obtain ⟨l, -, hmoves⟩ := hone.resolve_right fun hkept => he hkept.1
  rw [World.held, hmoves, holding_append, show holding [] w.lockMoves = some [] from hw]
  exact holding_pair

/-- A section releases the lock that it takes. -/
theorem Stage.locks_advance (he : unlockingEngine h.collEng) (hauto : h.rehashAuto = 0)
    (hfits : st.Fits h.toUserSettings) : Locks (st.advance h) [] [] fun _ => True := by
  refine fun w hw => (st.advance_locks he.shared hauto hfits).imp fun r w' hlocked => ⟨?_, trivial⟩
  by_cases ht : st.TakesLock h.collEng
  · exact (hlocked.1 ht).held he.ne_array hw
  · rw [(hlocked.2 ht).2]
    exact hw

/-! ## Calls that go on -/

/-- A call that goes on alone returns. -/
theorem HoldsEntries.runs_alone (hk : HoldsEntries u h w E) (he : unlockingEngine u.collEng)
    (hok : KeysOk u) (hu : u.tableSize ≠ 0) (hauto : u.rehashAuto = 0) (hfits : st.Fits u)
    (hsees : st.SeesRoot h) {n : Nat} (hn : st.rank ≤ n) :
    Total ((tableProtocol δ).alone .nontermination n st h) w fun r w' =>
      ∃ E', HoldsEntries u r.2 w' E' := by
  induction n generalizing st h w E with
  | zero => exact absurd hn (Nat.not_le.mpr st.rank_pos)
  | succ n ih =>
    have hfill : ∀ b k d, st = .fill b k d → h.MakesRoom w k := by
      rintro b k d rfl
      exact (he.ne_array hfits.1).elim
    have hall :=
      (hk.total_advance hok hu hauto hfits hfill hsees).and_returned Stage.advance_next
    refine Runs.bind hall ?_
    rintro ⟨r, h'⟩ w' hw ⟨⟨E', hk', heffect⟩, hnext⟩
    cases r with
    | inr o => exact ⟨E', hk'⟩
    | inl p =>
      have hp := hnext p rfl
      have hrank := hp.rank
      exact ih hk' (heffect.fits hk.engine p rfl) hp.sees (by omega)

section Progress

variable [DecidableEq κ] {s : HiInitSet} {w₀ : World} {as : List (TableAct δ κ)}
  {t : SharedTable δ κ}

/-- Between two sections the entries are stored and no lock is held. -/
theorem rested_of_run (hs : lhiSetSanityCheck s = .ok u) (he : unlockingEngine u.collEng)
    (hauto : u.rehashAuto = 0) (hok : KeysOk u) (hcreate : (hiCreate s).run w₀ = .ok (.ok h, w))
    (hheld : w.held = some [])
    (hrun : Run (tableProtocol δ) (fun _ _ _ => True) (idleTable h w) as t) :
    (∃ E, SharedRep u t E) ∧ t.world.held = some [] := by
  have hu : u.tableSize ≠ 0 := (lhiSetSanityCheck_ok hs).1
  refine hrun.invariant (I := fun _ t => (∃ E, SharedRep u t E) ∧ t.world.held = some [])
    ⟨⟨[], .start hs he.shared hcreate⟩, hheld⟩ ?_
  rintro as t a v ⟨⟨E, hr⟩, hheld⟩ - hstep
  have hset := hr.keeps.settings
  have hroom : RoomFor t a := by
    cases hstep with
    | call hp => trivial
    | @go c i p r s' w' hp hrun =>
      cases p with
      | fill b k d => exact (he.ne_array (hr.stages c i _ hp).1.1).elim
      | _ => trivial
  obtain ⟨-, E', hr', -⟩ := hr.step hok hu hauto hroom hstep
  refine ⟨⟨E', hr'⟩, ?_⟩
  cases hstep with
  | call hp => exact hheld
  | @go c i p r s' w' hp hrun =>
    have hlocks : Locks (p.advance t.state) [] [] fun _ => True := by
      subst hset
      exact Stage.locks_advance he hauto (hr.stages c i p hp).1
    exact ((hlocks _ hheld).of_run hrun).1

/-- Whatever the clients have done, no lock is held, and a call in progress returns after at most
four more sections of its own. A search of a tree does so while the root that it has read is the
root. -/
theorem shared_progress (hs : lhiSetSanityCheck s = .ok u) (he : unlockingEngine u.collEng)
    (hauto : u.rehashAuto = 0) (hok : KeysOk u) (hcreate : (hiCreate s).run w₀ = .ok (.ok h, w))
    (hheld : w.held = some [])
    (hrun : Run (tableProtocol δ) (fun _ _ _ => True) (idleTable h w) as t) :
    t.world.held = some [] ∧ ∀ c i p, t.pending c = some (i, p) → p.SeesRoot t.state →
      ∃ bs v o, Run (tableProtocol δ) (fun _ _ a => a.client = c) t bs v ∧ bs.length ≤ 4 ∧
        answers c bs = [(i, o)] ∧ v.pending = Function.update t.pending c none := by
  have hu : u.tableSize ≠ 0 := (lhiSetSanityCheck_ok hs).1
  obtain ⟨⟨E, hr⟩, hrest⟩ := rested_of_run hs he hauto hok hcreate hheld hrun
  refine ⟨hrest, fun c i p hp hsees => ?_⟩
  have hfits := (hr.stages c i p hp).1
  have hrank : p.rank ≤ 4 := by cases p <;> simp [Stage.rank]
  obtain ⟨⟨o, h'⟩, w', hrun', -⟩ :=
    total_iff.mp (hr.keeps.runs_alone he hok hu hauto hfits hsees hrank)
  have hstart : Run (tableProtocol δ) (fun _ _ a => a.client = c) t [] t := .nil
  obtain ⟨bs, hbs, hans, hlen⟩ := hstart.alone (fun _ _ _ h => h) hp hrun'
  exact ⟨bs, _, o, hbs, by simpa using hlen, hans, rfl⟩

end Progress

/-- One client has read the root, and the other one has inserted a key below it. -/
theorem shared_progress_two :
    ∃ (h : HiHandle String) (w : World) (as bs : List (TableAct String Bool))
      (t v : SharedTable String Bool) (root : Ptr) (o : Result String),
      (hiCreate oneTree).run (World.start fun _ _ => 0) = .ok (.ok h, w) ∧
      Run (tableProtocol String) (fun _ _ _ => True) (idleTable h w) as t ∧
      t.pending false = some (.get ⟨[1, 0], by decide⟩, .seek 0 (some root) ⟨[1, 0], by decide⟩) ∧
      t.world.held = some [] ∧
      Run (tableProtocol String) (fun _ _ a => a.client = false) t bs v ∧ bs.length ≤ 4 ∧
      answers false bs = [(.get ⟨[1, 0], by decide⟩, o)] ∧
      v.pending = Function.update t.pending false none := by
  obtain ⟨u, hs, heng, hauto, hf, hcmp⟩ := oneTree_settings
  obtain ⟨h, w, as, t, root, hcreate, hfollow, hp, hsees, hheld⟩ :
      ∃ (h : HiHandle String) (w : World) (as : List (TableAct String Bool))
        (t : SharedTable String Bool) (root : Ptr),
      (hiCreate oneTree).run (World.start fun _ _ => 0) = .ok (.ok h, w) ∧
      (tableProtocol String).follow (fun _ _ _ => true)
        [(true, some (.insert ⟨[1, 0], by decide⟩ "one")), (true, none), (true, none), (true, none),
          (true, none), (true, some (.insert ⟨[2, 0], by decide⟩ "two")),
          (false, some (.get ⟨[1, 0], by decide⟩)), (false, none), (true, none), (true, none),
          (true, none)] [] (idleTable h w) = some (as, t) ∧
      t.pending false =
        some (.get ⟨[1, 0], by decide⟩, .seek 0 (some root) ⟨[1, 0], by decide⟩) ∧
      decide ((Stage.seek 0 (some root) ⟨[1, 0], by decide⟩ : Stage String).SeesRoot t.state) = true ∧
      w.held = some [] := ⟨_, _, _, _, _, rfl, rfl, rfl, rfl, rfl⟩
  have hrun : Run (tableProtocol String) (fun _ _ _ => True) (idleTable h w) as t :=
    (Run.nil.of_follow hfollow).imp fun _ _ _ _ => trivial
  have hok : KeysOk u := by
    rw [KeysOk, hf, hcmp, heng]
    exact oneTree_contract
  obtain ⟨hrest, hprogress⟩ := shared_progress hs (.inr heng) hauto hok hcreate hheld hrun
  obtain ⟨bs, v, o, hbs, hlen, hans, hpending⟩ := hprogress _ _ _ hp (of_decide_eq_true hsees)
  exact ⟨h, w, as, bs, t, v, root, o, hcreate, hrun, hp, hrest, hbs, hlen, hans, hpending⟩

/-- One client has read the root, and the other one has removed it: the search reads freed memory. -/
theorem stale_root_read_freed :
    ∃ (h : HiHandle String) (w : World) (as : List (TableAct String Bool)) (t : SharedTable String Bool)
      (p : Stage String),
      (hiCreate oneTree).run (World.start fun _ _ => 0) = .ok (.ok h, w) ∧
      Run (tableProtocol String) (fun _ _ _ => True) (idleTable h w) as t ∧
      t.pending false = some (.get ⟨[1, 0], by decide⟩, p) ∧
      (p.advance t.state).run t.world = .error .badAddress := by
  obtain ⟨h, w, as, t, p, hcreate, hfollow, hp, hfault⟩ :
      ∃ (h : HiHandle String) (w : World) (as : List (TableAct String Bool))
        (t : SharedTable String Bool) (p : Stage String),
      (hiCreate oneTree).run (World.start fun _ _ => 0) = .ok (.ok h, w) ∧
      (tableProtocol String).follow (fun _ _ _ => true)
        [(true, some (.insert ⟨[1, 0], by decide⟩ "one")), (true, none), (true, none), (true, none),
          (true, none), (false, some (.get ⟨[1, 0], by decide⟩)), (false, none),
          (true, some (.remove ⟨[1, 0], by decide⟩)), (true, none)] [] (idleTable h w) =
        some (as, t) ∧
      t.pending false = some (.get ⟨[1, 0], by decide⟩, p) ∧
      (p.advance t.state).run t.world = .error .badAddress := ⟨_, _, _, _, _, rfl, rfl, rfl, rfl⟩
  exact ⟨h, w, as, t, p, hcreate, (Run.nil.of_follow hfollow).imp fun _ _ _ _ => trivial, hp, hfault⟩

end Hashish
