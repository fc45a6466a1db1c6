import Hashish.KeyRaces
import Hashish.Lib.Linearization

/-!
# A shared table is a map

Each call on a shared table takes effect in one of its sections: the one that looks for the key,
or the one that links it. A tree counts its nodes in a later section, which no client sees.

* `shared_linearizable`: what clients see of a tree that is searched from the roots it has, or of a
  list or an array in which no section links a key that is there, is what an atomic map shows them.
* `shared_serializable`: for lists and trees, the calls have an order in which a table of its own
  gives the same answers and ends with the same pairs.
-/

namespace Hashish

open Hashish.Lib

variable {δ κ : Type} {w w' : World} {h : HiHandle δ} {u : UserSettings} {k : Key} {d : δ}
  {E E' : List (Stored δ)} {st : Stage δ} {r : Stage δ ⊕ Result δ} {i : MapOp δ}

/-- The answer of a call that has taken effect. -/
def Stage.committed : Stage δ → Option (Result δ)
  | count => some ⟨success, none⟩
  | uncount r => some r
  | _ => none

/-! ## Where a call takes effect -/

section Effects

variable {mayFail mayFail' : Prop} {c : κ} {m : KeyMap u.keyCmp δ}

/-- A section that answers a call with `o`, and does to the contents what the call does. -/
theorem settles_of_outcome {o : Result δ} (hr : Equivalence u.keyCmp.same) (hm : Holds m E)
    (hst : st.committed = none) (ho : r.elim Stage.committed some = some o)
    (h : Outcome u.keyCmp mayFail E i o E') :
    ∃ m', Holds m' E' ∧ (Act.go c i st r : TableAct δ κ).Settles (mapMachine u.keyCmp δ mayFail)
      Stage.committed m m' := by
  obtain ⟨hallows, hholds⟩ := h.refines hr hm
  refine ⟨_, hholds, ?_⟩
  rw [Act.Settles, hst, ho]
  exact ⟨hallows, rfl⟩

/-- A section that leaves the contents, and whether the call has taken effect. -/
theorem settles_of_perm (hm : Holds m E) (hsame : r.elim Stage.committed some = st.committed)
    (hp : E'.Perm E) :
    ∃ m', Holds m' E' ∧ (Act.go c i st r : TableAct δ κ).Settles (mapMachine u.keyCmp δ mayFail)
      Stage.committed m m' := by
  refine ⟨m, hm.trans (hp.symm.map _), ?_⟩
  rw [Act.Settles, hsame]
  cases st.committed <;> simp

/-- An absent key is linked, or the memory is exhausted. -/
theorem Added.settles {done : Stage δ ⊕ Result δ} (h : Added mayFail E k d done r E')
    (hmay : mayFail → mayFail') (hr : Equivalence u.keyCmp.same) (hm : Holds m E)
    (hst : st.committed = none)
    (hdone : done.elim Stage.committed some = some ⟨success, none⟩)
    (hf : u.keyCmp.find E k = none) :
    ∃ m', Holds m' E' ∧ (Act.go c (.insert k d) st r : TableAct δ κ).Settles
      (mapMachine u.keyCmp δ mayFail') Stage.committed m m' := by
  rcases h with ⟨rfl, x, hx, hp⟩ | ⟨hm', ⟨q, rfl, hq⟩, hp⟩
  · exact settles_of_outcome hr hm hst hdone
      (.inr (.inl ⟨hf, rfl, by simpa [hx] using hp.map Stored.pair⟩))
  · exact settles_of_outcome hr hm hst rfl (.inr (.inr ⟨hmay hm', hf, hq, hp.map _⟩))

/-- One section and the atomic map. -/
theorem Stage.Effect.settles {sees : Prop} (h : st.Effect u mayFail sees E r E') (hsees : sees)
    (hmay : mayFail → mayFail') (hr : Equivalence u.keyCmp.same) (hm : Holds m E) (hst : st.Of i)
    (hlist : ∀ k d, st = .insert k d → u.collEng = .list → u.keyCmp.find E k = none)
    (hfill : ∀ b k d, st = .fill b k d → u.keyCmp.find E k = none) :
    ∃ m', Holds m' E' ∧ (Act.go c i st r : TableAct δ κ).Settles (mapMachine u.keyCmp δ mayFail')
      Stage.committed m m' := by
  cases st with
  | start op =>
    obtain rfl : op = i := hst
    cases op with
    | insert k d =>
      obtain ⟨hp, rfl⟩ := h
      split
      · rename_i hdup
        exact settles_of_outcome hr hm rfl rfl (.inl ⟨hdup.2, rfl, hp.map _⟩)
      · exact settles_of_perm hm rfl hp
    | get k =>
      obtain ⟨hp, hnext⟩ := h
      split at hnext
      · obtain ⟨root, rfl⟩ := hnext
        exact settles_of_perm hm rfl hp
      · rw [hnext]
        exact settles_of_outcome hr hm rfl rfl ⟨rfl, hp.map _⟩
    | remove k =>
      rw [Stage.Effect] at h
      cases hx : u.keyCmp.find E k with
      | none =>
        rw [hx] at h
        obtain ⟨hp, rfl⟩ := h
        exact settles_of_outcome hr hm rfl rfl ⟨by rw [hx]; rfl, by rw [hx]; exact hp.map _⟩
      | some x =>
        rw [hx] at h
        obtain ⟨hp, rfl⟩ := h
        have hanswer : (if u.collEng = .rbtree then .inl (uncount ⟨success, some x.data⟩)
            else .inr ⟨success, some x.data⟩ : Stage δ ⊕ Result δ).elim Stage.committed some =
              some ⟨success, some x.data⟩ := by split <;> rfl
        exact settles_of_outcome hr hm rfl hanswer
          ⟨by rw [hx]; rfl, by rw [hx]; exact hp.map Stored.pair⟩
  | seek tree root k =>
    obtain rfl : i = .get k := hst
    obtain ⟨hp, q, rfl, hq⟩ := h
    exact settles_of_outcome hr hm rfl rfl ⟨hq hsees, hp.map _⟩
  | rehash k d =>
    obtain ⟨hp, rfl⟩ := h
    exact settles_of_perm hm rfl hp
  | insert k d =>
    obtain rfl : i = .insert k d := hst
    rw [Stage.Effect] at h
    split at h
    · rename_i hl
      exact h.settles hmay hr hm rfl rfl (hlist k d rfl hl)
    · split at h
      · rename_i hdup
        obtain ⟨hp, rfl⟩ := h
        exact settles_of_outcome hr hm rfl rfl (.inl ⟨hdup, rfl, hp.map _⟩)
      · rename_i hf
        split at h
        · obtain ⟨hp, rfl⟩ := h
          exact settles_of_perm hm rfl hp
        · exact h.settles hmay hr hm rfl rfl (not_not.mp hf)
  | fill b k d =>
    obtain rfl : i = .insert k d := hst
    exact h.settles hmay hr hm rfl rfl (hfill b k d rfl)
  | count =>
    obtain ⟨hp, rfl⟩ := h
    exact settles_of_perm hm rfl hp
  | uncount q =>
    obtain ⟨hp, rfl⟩ := h
    exact settles_of_perm hm rfl hp

end Effects

/-! ## Runs -/

section Runs

variable [DecidableEq κ] {s : HiInitSet} {w₀ : World} {as : List (TableAct δ κ)}
  {t : SharedTable δ κ}

/-- A tree looks for the key and links it in one section, and is searched from the root that it has.
The other engines link only what they do not have. -/
def LinksOnce (u : UserSettings) (t : SharedTable δ κ) (a : TableAct δ κ) : Prop :=
  RootSeen t a ∧ (u.collEng = .rbtree ∨ LinksAbsent t a)

theorem LinksOnce.linksAbsent {a : TableAct δ κ} {t v : SharedTable δ κ} (h : LinksOnce u t a)
    (hr : SharedRep u t E) (hstep : Step (tableProtocol δ) t a v) : LinksAbsent t a := by
  rcases h.2 with he | h
  · have he' : t.state.collEng = .rbtree := (congrArg UserSettings.collEng hr.keeps.settings :).trans he
    cases hstep with
    | call hp => trivial
    | @go c i p r s' w' hp hrun =>
      cases p with
      | insert k d => exact fun hl => absurd (he'.symm.trans hl) (by decide)
      | fill b k d => exact absurd (he.symm.trans (hr.stages c i _ hp).1.1) (by decide)
      | _ => trivial
  · exact h

/-- The table stores the pairs of the map. -/
structure SharedMap (u : UserSettings) (w : World) (t : SharedTable δ κ) (m : KeyMap u.keyCmp δ) :
    Prop where
  later : w ≤ t.world
  stores : ∃ E, SharedRep u t E ∧ Holds m E

theorem SharedMap.step {t v : SharedTable δ κ} {a : TableAct δ κ} {m : KeyMap u.keyCmp δ}
    (hm : SharedMap u w t m) (hok : KeysOk u) (hu : u.tableSize ≠ 0) (hauto : u.rehashAuto = 0)
    (honce : LinksOnce u t a) (hstep : Step (tableProtocol δ) t a v) :
    t.world ≤ v.world ∧ ∃ m', SharedMap u w v m' ∧
      a.Settles (mapMachine u.keyCmp δ (w.SomeFailed v.world)) Stage.committed m m' := by
  obtain ⟨hw, E, hr, hholds⟩ := hm
  have hl := honce.linksAbsent hr hstep
  obtain ⟨hw', E', hr', hact⟩ := hr.step hok hu hauto hl.room hstep
  refine ⟨hw', ?_⟩
  cases a with
  | call c i =>
    obtain rfl : E' = E := hact
    exact ⟨m, ⟨hw.trans hw', E', hr', hholds⟩, rfl⟩
  | go c i p r =>
    have hmay : t.world.SomeFailed v.world → w.SomeFailed v.world := fun hf => hf.within hw le_rfl
    have hlist : ∀ k d, p = .insert k d → u.collEng = .list → u.keyCmp.find E k = none := by
      rintro k d rfl he
      have he' : t.state.collEng = .list :=
        (congrArg UserSettings.collEng hr.keeps.settings :).trans he
      exact hr.keeps.find_of_lacks hok hu (hl he')
    have hfill : ∀ b k d, p = .fill b k d → u.keyCmp.find E k = none := by
      rintro b k d rfl
      exact hr.keeps.find_of_lacks hok hu hl.1
    obtain ⟨m', hholds', hsettles⟩ :=
      hact.2.2.settles (c := c) honce.1 hmay hok.equivalence hholds hact.2.1 hlist hfill
    exact ⟨m', ⟨hw.trans hw', E', hr', hholds'⟩, hsettles⟩

theorem SharedMap.of_run (hs : lhiSetSanityCheck s = .ok u) (he : sharedEngine u.collEng)
    (hauto : u.rehashAuto = 0) (hok : KeysOk u) (hcreate : (hiCreate s).run w₀ = .ok (.ok h, w))
    (hrun : Run (tableProtocol δ) (fun _ => LinksOnce u) (idleTable h w) as t) :
    ∃ m : KeyMap u.keyCmp δ, SharedMap u w t m ∧
      AtomicRun (mapMachine u.keyCmp δ (w.SomeFailed t.world)) .empty (history as) m
        (t.slot Stage.committed) := by
  have hu : u.tableSize ≠ 0 := (lhiSetSanityCheck_ok hs).1
  have hstart : SharedMap u w (idleTable h w : SharedTable δ κ) .empty :=
    ⟨le_rfl, [], .start hs he hcreate, .refl _⟩
  refine hrun.linearized Stage.committed
    (N := fun v => mapMachine u.keyCmp δ (w.SomeFailed v.world)) (fun _ => rfl) idle_idleTable hstart ?_
  intro as t a v m hm honce hstep
  obtain ⟨hgrown, hm'⟩ := hm.step hok hu hauto honce hstep
  exact ⟨mapMachine_mono fun hf => hf.within le_rfl hgrown, hm'⟩

/-- A section that ends an insertion without success, the key being absent, had a request refused. -/
def FailsRefused (t v : SharedTable δ κ) (a : TableAct δ κ) : Prop :=
  match a with
  | .go _ (.insert _ _) _ (.inr q) => q.Exhausted → t.world.SomeFailed v.world
  | _ => True

omit [DecidableEq κ] in
theorem Acted.failsRefused {t v : SharedTable δ κ} {a : TableAct δ κ} (h : Acted u t v E a E') :
    FailsRefused t v a := by
  cases a with
  | call c i => trivial
  | go c i p r =>
    cases i with
    | get k => trivial
    | remove k => trivial
    | insert k d =>
      cases r with
      | inl p' => trivial
      | inr q =>
        intro hq
        rcases h.2.2.answered h.2.1 with hs | hd | hf
        · exact (hq.1 hs).elim
        · exact (hq.2.1 hd.1).elim
        · exact hf

/-- What clients see of a shared table is what an atomic map shows them, and the table stores the
pairs of the map. An insertion that fails had a request of its own refused. -/
theorem shared_linearizable (hs : lhiSetSanityCheck s = .ok u) (he : sharedEngine u.collEng)
    (hauto : u.rehashAuto = 0) (hok : KeysOk u) (hcreate : (hiCreate s).run w₀ = .ok (.ok h, w))
    (hrun : Run (tableProtocol δ) (fun _ => LinksOnce u) (idleTable h w) as t) :
    (∃ (m : KeyMap u.keyCmp δ) (E : List (Stored δ)),
      AtomicRun (mapMachine u.keyCmp δ (w.SomeFailed t.world)) .empty (history as) m
        (t.slot Stage.committed) ∧
      HoldsEntries u t.state t.world E ∧ Holds m E) ∧
    ∀ a v, LinksOnce u t a → Step (tableProtocol δ) t a v → FailsRefused t v a := by
  obtain ⟨m, ⟨-, E, hr, hm⟩, hatomic⟩ := SharedMap.of_run hs he hauto hok hcreate hrun
  refine ⟨⟨m, E, hatomic, hr.keeps, hm⟩, fun a v honce hstep => ?_⟩
  have hu : u.tableSize ≠ 0 := (lhiSetSanityCheck_ok hs).1
  obtain ⟨-, E', -, hact⟩ := hr.step hok hu hauto (honce.linksAbsent hr hstep).room hstep
  exact hact.failsRefused

omit [DecidableEq κ] in
theorem holdsEntries_of_list {bs : List (List (Stored δ))} (he : h.collEng = .list)
    (hr : (listEngine δ).Rep h w bs) : HoldsEntries h.toUserSettings h w bs.flatten := by
  obtain ⟨os, hr, rfl⟩ := hr
  exact ⟨rfl, .inl ⟨he, os, hr, rfl⟩⟩

omit [DecidableEq κ] in
theorem holdsEntries_of_tree {bs : List (List (Stored δ))} (he : h.collEng = .rbtree)
    (hr : (rbtreeEngine δ).Rep h w bs) : HoldsEntries h.toUserSettings h w bs.flatten := by
  have hcount := (rbtreeEngine δ).count hr
  obtain ⟨ts, hr, hs, rfl⟩ := hr
  refine ⟨rfl, .inr (.inr ⟨he, ts, ?_, hs, rfl⟩)⟩
  rwa [HiHandle.recount, ← hcount]

/-- The calls have an order in which a table that nobody shares gives the same answers. It then
stores the same pairs. -/
theorem shared_serializable (hs : lhiSetSanityCheck s = .ok u)
    (he : u.collEng = .list ∨ u.collEng = .rbtree) (hauto : u.rehashAuto = 0) (hok : KeysOk u)
    (hw : w₀.AllocsSucceed) (hcreate : (hiCreate s).run w₀ = .ok (.ok h, w))
    (hrun : Run (tableProtocol δ) (fun _ => LinksOnce u) (idleTable h w) as t) :
    ∃ L : List (κ × MapOp δ × Result δ),
      (∀ c, (L.filter fun e => e.1 = c).map Prod.snd =
        answers c as ++ (t.slot Stage.committed c).settled) ∧
      ∀ w₁ : World, w₁.AllocsSucceed → ∃ h' w', (session s (L.map fun e => e.2.1)).run w₁ =
          .ok (.ok (L.map fun e => e.2.2, h'), w') ∧
        ∃ E E', HoldsEntries u t.state t.world E ∧ HoldsEntries h'.toUserSettings h' w' E' ∧
          (E.map Stored.pair).Perm (E'.map Stored.pair) := by
  have hshared : sharedEngine u.collEng := he.imp_right .inr
  have hw' : w.AllocsSucceed := hw.mono ((hiCreate s).grows hcreate)
  obtain ⟨m, ⟨-, E, hr, hm⟩, hatomic⟩ := SharedMap.of_run hs hshared hauto hok hcreate hrun
  obtain ⟨L, htrace, hclients⟩ := hatomic.sequential
  have hmap := mapRun_of_trace (fun hf => hf.not_allocsSucceed hw') htrace
  refine ⟨L, fun c => (hclients c).trans (by rw [returns_history]), fun w₁ hw₁ => ?_⟩
  have hresp : u.hashFunc.Respects u.keyCmp fun _ => True := fun k k' _ _ => hok.hash k k'
  obtain ⟨h', w', bs, hsession, hsame, hkeeps⟩ :
      ∃ (h' : HiHandle δ) (w' : World) (bs : List (List (Stored δ))),
      (session s (L.map fun e => e.2.1)).run w₁ =
        .ok (.ok ((mapSession u.keyCmp (L.map fun e => e.2.1)).1, h'), w') ∧
      Holds (mapSession u.keyCmp (L.map fun e => e.2.1)).2 bs.flatten ∧
      HoldsEntries h'.toUserSettings h' w' bs.flatten := by
    rcases he with he | he
    · have hall := (listEngine δ).runs_session hs (.inl he) hauto hok.equivalence hresp hw₁
        (L.map fun e => e.2.1)
      obtain ⟨_, w', hrun', h', bs, rfl, hrep⟩ := total_iff.mp hall
      have he' : h'.collEng = .list := by rw [hrep.settings]; exact he
      exact ⟨h', w', bs, hrun', hrep.holds, holdsEntries_of_list he' hrep.rep⟩
    · have hall := (rbtreeEngine δ).runs_session hs he hauto hok.equivalence ⟨hresp, hok.order he⟩
        hw₁ (L.map fun e => e.2.1)
      obtain ⟨_, w', hrun', h', bs, rfl, hrep⟩ := total_iff.mp hall
      have he' : h'.collEng = .rbtree := by rw [hrep.settings]; exact he
      exact ⟨h', w', bs, hrun', hrep.holds, holdsEntries_of_tree he' hrep.rep⟩
  rw [mapSession, hmap] at hsession hsame
  exact ⟨h', w', hsession, E, bs.flatten, hr.keeps, hkeeps, hm.symm.trans hsame⟩

end Runs

/-! ## An entry that is removed before it is counted -/

/-- One client has linked its key, another one has found and removed it. The first one has not
returned. -/
theorem shared_linearizable_two :
    ∃ (u : UserSettings) (h : HiHandle String) (w : World) (as : List (TableAct String Bool))
      (t : SharedTable String Bool) (m : KeyMap u.keyCmp String) (E : List (Stored String)),
      (hiCreate oneTree).run (World.start fun _ _ => 0) = .ok (.ok h, w) ∧
      Run (tableProtocol String) (fun _ => LinksOnce u) (idleTable h w) as t ∧
      (answers true as).map Prod.snd = [⟨success, some "one"⟩, ⟨success, some "one"⟩] ∧
      t.slot Stage.committed false = .done (.insert ⟨[1, 0], by decide⟩ "one") ⟨success, none⟩ ∧
      AtomicRun (mapMachine u.keyCmp String (w.SomeFailed t.world)) .empty (history as) m
        (t.slot Stage.committed) ∧
      HoldsEntries u t.state t.world E ∧ Holds m E := by
  obtain ⟨u, hs, heng, hauto, hf, hcmp⟩ := oneTree_settings
  obtain ⟨h, w, as, t, hcreate, hfollow, htrue, hfalse⟩ :
      ∃ (h : HiHandle String) (w : World) (as : List (TableAct String Bool))
        (t : SharedTable String Bool),
      (hiCreate oneTree).run (World.start fun _ _ => 0) = .ok (.ok h, w) ∧
      (tableProtocol String).follow (fun _ t a => decide (RootSeen t a))
        [(false, some (.insert ⟨[1, 0], by decide⟩ "one")), (false, none), (false, none),
          (false, none), (true, some (.get ⟨[1, 0], by decide⟩)), (true, none), (true, none),
          (true, some (.remove ⟨[1, 0], by decide⟩)), (true, none), (true, none)] []
          (idleTable h w) = some (as, t) ∧
      (answers true as).map Prod.snd = [⟨success, some "one"⟩, ⟨success, some "one"⟩] ∧
      t.slot Stage.committed false = .done (.insert ⟨[1, 0], by decide⟩ "one") ⟨success, none⟩ :=
    ⟨_, _, _, _, rfl, rfl, rfl, rfl⟩
  have hrun : Run (tableProtocol String) (fun _ => LinksOnce u) (idleTable h w) as t :=
    (Run.nil.of_follow hfollow).imp fun _ _ _ hseen => ⟨of_decide_eq_true hseen, .inl heng⟩
  have hok : KeysOk u := by
    rw [KeysOk, hf, hcmp, heng]
    exact oneTree_contract
  obtain ⟨⟨m, E, hatomic, hkeeps, hm⟩, -⟩ :=
    shared_linearizable hs (.inr (.inr heng)) hauto hok hcreate hrun
  exact ⟨u, h, w, as, t, m, E, hcreate, hrun, htrue, hfalse, hatomic, hkeeps, hm⟩

/-- Two clients insert in turns; one looks for the key of the other. -/
theorem shared_serializable_two :
    ∃ (h : HiHandle String) (w : World) (as : List (TableAct String Bool))
      (t : SharedTable String Bool) (L : List (Bool × MapOp String × Result String)),
      (hiCreate byteList).run (World.start fun _ _ => 0) = .ok (.ok h, w) ∧
      Run (tableProtocol String) (fun _ t a => RootSeen t a ∧ LinksAbsent t a) (idleTable h w) as t ∧
      (answers false as).map Prod.snd = [⟨success, none⟩] ∧
      (answers true as).map Prod.snd = [⟨success, none⟩, ⟨success, some "one"⟩] ∧
      (∀ c, (L.filter fun e => e.1 = c).map Prod.snd =
        answers c as ++ (t.slot Stage.committed c).settled) ∧
      ∃ (h' : HiHandle String) (w' : World),
        (session byteList (L.map fun e => e.2.1)).run (World.start fun _ _ => 0) =
          .ok (.ok (L.map fun e => e.2.2, h'), w') := by
  obtain ⟨u, hs, -, heng, hf, hcmp⟩ := byteList_settings.check
  obtain ⟨h, w, as, t, hcreate, hfollow, hfalse, htrue⟩ :
      ∃ (h : HiHandle String) (w : World) (as : List (TableAct String Bool))
        (t : SharedTable String Bool),
      (hiCreate byteList).run (World.start fun _ _ => 0) = .ok (.ok h, w) ∧
      (tableProtocol String).follow (fun _ t a => decide (RootSeen t a) && linksAbsent t a)
        [(false, some (.insert ⟨[1, 0], by decide⟩ "one")), (false, none),
          (true, some (.insert ⟨[2, 0], by decide⟩ "two")), (true, none), (false, none),
          (true, none), (false, none), (true, none),
          (true, some (.get ⟨[1, 0], by decide⟩)), (true, none)] [] (idleTable h w) =
        some (as, t) ∧
      (answers false as).map Prod.snd = [⟨success, none⟩] ∧
      (answers true as).map Prod.snd = [⟨success, none⟩, ⟨success, some "one"⟩] :=
    ⟨_, _, _, _, rfl, rfl, rfl, rfl⟩
  have hrun : Run (tableProtocol String) (fun _ t a => RootSeen t a ∧ LinksAbsent t a)
      (idleTable h w) as t :=
    (Run.nil.of_follow hfollow).imp fun _ _ _ hboth => by
      obtain ⟨hseen, hlinks⟩ := Bool.and_eq_true_iff.mp hboth
      exact ⟨of_decide_eq_true hseen, (linksAbsent_sound cmpBytes ⟨[1, 0], by decide⟩ hlinks).1⟩
  have hauto : u.rehashAuto = 0 := (lhiSetSanityCheck_ok hs).2.2.2.1
  have hok : KeysOk u := by
    rw [KeysOk, hf, hcmp, heng]
    exact byteList_contract
  have hstart := World.start_allocsSucceed fun _ _ => 0
  obtain ⟨L, hclients, hsession⟩ := shared_serializable hs (.inl heng) hauto hok hstart hcreate
    (hrun.imp fun _ _ _ h => ⟨h.1, .inr h.2⟩)
  obtain ⟨h', w', hrun', -⟩ := hsession _ hstart
  exact ⟨h, w, as, t, L, hcreate, hrun, hfalse, htrue, hclients, h', w', hrun'⟩

end Hashish
