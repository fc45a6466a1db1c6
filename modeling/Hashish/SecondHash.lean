import Hashish.HashLists

/-!
# When the second hash is only an optimisation

`COLL_ENG_LIST_HASH` and `COLL_ENG_LIST_MTF_HASH` are meant to answer as `COLL_ENG_LIST` does, only
faster. They look at `key_hash`, which `lhi_insert_list` does not write, and `lhi_get_list` asks for
different values under `COLL_ENG_LIST_MTF_HASH`.

* `lost_eq_nil_iff`: what the words of the fresh blocks must be for a run to lose no pair.
* `runs_like_list_iff`: the runs that get the answers of `COLL_ENG_LIST`.
-/

namespace Hashish

open Hashish.Lib

variable {δ : Type} {cmp : KeyCmp} {e : CollEng} {f f2 : HashFunc} {word : Nat → UInt32}
  {m : KeyMap cmp δ} {n : Nat} {op : MapOp δ} {ops : List (MapOp δ)}

/-! ## Conditions on a run -/

/-- An insertion of a new key meets the second hash of the key in the word. -/
def MapOp.Matches (f : HashFunc) (word : UInt32) (m : KeyMap cmp δ) : MapOp δ → Prop
  | .insert k _ => m.Absent k → f.hash k = word
  | .get _ | .remove _ => True

/-- Every insertion of a new key meets the second hash of the key in the block of its object. The
run makes its first request as the `n`-th one. -/
def WordsMatch (f : HashFunc) (word : Nat → UInt32) :
    KeyMap cmp δ → Nat → List (MapOp δ) → Prop
  | _, _, [] => True
  | m, n, op :: ops =>
    op.Matches f (word n) m ∧ WordsMatch f word (mapStep m op).2 (n + op.requests m) ops

/-- A lookup that asks for a key that is not stored. -/
def MapOp.Misses (m : KeyMap cmp δ) : MapOp δ → Prop
  | .get k => m.Absent k
  | .insert _ _ | .remove _ => True

/-- No lookup of the run asks for a stored key. -/
def GetsMiss : KeyMap cmp δ → List (MapOp δ) → Prop
  | _, [] => True
  | m, op :: ops => op.Misses m ∧ GetsMiss (mapStep m op).2 ops

theorem WordsMatch.of_append {ps qs : List (MapOp δ)} (h : WordsMatch f word m n (ps ++ qs)) :
    WordsMatch f word m n ps := by
  induction ps generalizing m n with
  | nil => trivial
  | cons p ps ih => exact ⟨h.1, ih h.2⟩

/-- A run without insertions meets every condition on words. -/
theorem wordsMatch_of_reads (hreads : ∀ k d, MapOp.insert k d ∉ ops) :
    WordsMatch f word m n ops := by
  induction ops generalizing m n with
  | nil => trivial
  | cons op ops ih =>
    refine ⟨?_, ih fun k d hop => hreads k d (.tail _ hop)⟩
    cases op with
    | insert k d => exact (hreads k d List.mem_cons_self).elim
    | get k => trivial
    | remove k => trivial

theorem getsMiss_of_reads (hreads : ∀ k d, MapOp.insert k d ∉ ops) :
    GetsMiss (.empty : KeyMap cmp δ) ops := by
  induction ops with
  | nil => trivial
  | cons op ops ih =>
    have hempty : (mapStep (.empty : KeyMap cmp δ) op).2 = .empty :=
      mapStep_empty fun k d he => hreads k d (he ▸ List.mem_cons_self)
    have hrest := ih fun k d hop => hreads k d (.tail _ hop)
    refine ⟨?_, hempty.symm ▸ hrest⟩
    cases op with
    | insert k d => trivial
    | get k => exact fun _ => nofun
    | remove k => trivial

/-! ## Runs that lose nothing -/

/-- A call that meets the right word does to the map what it should. -/
theorem hashedStep_of_matches (hop : op.Matches f (word n) m) :
    (hashedStep e (m, []) (op, op.meets f (word n))).2 = ((mapStep m op).2, []) := by
  cases op with
  | insert k d =>
    rw [hashedStep, mapStep]
    by_cases ha : m.Absent k
    · rw [dif_pos ha, dif_pos ha, MapOp.meets, decide_eq_true (hop ha)]
      rfl
    · rw [dif_neg ha, dif_neg ha]
  | get k => rfl
  | remove k => rfl

/-- A call that meets a wrong word loses a pair. -/
theorem lost_of_mismatch (hop : ¬ op.Matches f (word n) m) :
    (hashedStep e (m, []) (op, op.meets f (word n))).2.2 ≠ [] := by
  cases op with
  | insert k d =>
    obtain ⟨ha, hne⟩ := Classical.not_imp.mp hop
    rw [hashedStep, dif_pos ha, MapOp.meets, decide_eq_false hne]
    exact List.cons_ne_nil _ _
  | get k => exact (hop trivial).elim
  | remove k => exact (hop trivial).elim

/-- A run whose insertions meet the right words does to the map what it should. -/
theorem hashedRun_of_wordsMatch (hwords : WordsMatch f word m n ops) :
    (Machine.runStep (hashedStep e) (m, []) (markedCalls e f word (m, []) n ops)).2 =
      ((mapRun m ops).2, []) := by
  induction ops generalizing m n with
  | nil => rfl
  | cons op ops ih =>
    rw [markedCalls, Machine.runStep, hashedStep_of_matches hwords.1]
    exact ih hwords.2

/-- A run loses no pair when every insertion of a new key meets the right word, and only then. -/
theorem lost_eq_nil_iff :
    (Machine.runStep (hashedStep e) (m, []) (markedCalls e f word (m, []) n ops)).2.2 = [] ↔
      WordsMatch f word m n ops := by
  refine ⟨fun hnil => ?_, fun hwords => congrArg Prod.snd (hashedRun_of_wordsMatch hwords)⟩
  induction ops generalizing m n with
  | nil => trivial
  | cons op ops ih =>
    rw [markedCalls, Machine.runStep] at hnil
    dsimp only at hnil
    by_cases hop : op.Matches f (word n) m
    · rw [hashedStep_of_matches hop] at hnil
      exact ⟨hop, ih hnil⟩
    -- What the mismatch loses stays lost.
    · have hsuffix := hashedRun_suffix e
        (hashedStep e (m, ([] : List (Key × δ))) (op, op.meets f (word n))).2
        (markedCalls e f word (hashedStep e (m, []) (op, op.meets f (word n))).2
          (n + op.requests m) ops)
      rw [hnil] at hsuffix
      exact (lost_of_mismatch hop (List.suffix_nil.mp hsuffix)).elim

/-- A lookup of `COLL_ENG_LIST_MTF_HASH` finds nothing where nothing is lost. -/
theorem hashedStep_answer (heq : Equivalence cmp.same) {kept : Bool} :
    (hashedStep e (m, []) (op, kept)).1 = (mapStep m op).1 ↔ (e = .listMtfHash → op.Misses m) := by
  cases op with
  | insert k d =>
    refine iff_of_true ?_ fun _ => trivial
    rw [hashedStep, mapStep]
    by_cases ha : m.Absent k
    · rw [dif_pos ha, dif_pos ha]
    · rw [dif_neg ha, dif_neg ha]
  | get k =>
    rw [hashedStep, mapStep, MapOp.Misses, ← FMap.get_eq_none_iff heq]
    by_cases he : e = .listMtfHash
    · rw [if_pos he, forall_prop_of_true he]
      cases m.get k with
      | none => exact iff_of_true rfl rfl
      | some d =>
        have hne : hiErrNokey ≠ success := by decide
        exact iff_of_false (fun h => hne (congrArg Result.status h)) (Option.some_ne_none d)
    · rw [if_neg he]
      exact iff_of_true rfl fun h => (he h).elim
  | remove k => exact iff_of_true rfl fun _ => trivial

/-- A run that loses no pair answers as the map does, unless `COLL_ENG_LIST_MTF_HASH` looks up a
stored key. -/
theorem hashedRun_answers_iff (heq : Equivalence cmp.same) (hwords : WordsMatch f word m n ops) :
    (Machine.runStep (hashedStep e) (m, []) (markedCalls e f word (m, []) n ops)).1 =
      (mapRun m ops).1 ↔ (e = .listMtfHash → GetsMiss m ops) := by
  induction ops generalizing m n with
  | nil => exact iff_of_true rfl fun _ => trivial
  | cons op ops ih =>
    have hrest := ih hwords.2
    rw [markedCalls, Machine.runStep, hashedStep_of_matches hwords.1]
    rw [mapRun, Machine.runStep, List.cons_eq_cons, hashedStep_answer heq, GetsMiss, imp_and]
    exact and_congr_right fun _ => hrest

/-! ## Sessions -/

/-- From the world `w` on, the calls get the answers that they get from a table with
`COLL_ENG_LIST`, and after each of them `key_hash` of every object is the second hash of its key. -/
def LikeList (f2 : HashFunc) (s : HiInitSet) (ops : List (MapOp δ)) (w : World) : Prop :=
  (∃ rs, Total (session s ops) w (fun r _ => ∃ h, r = .ok (rs, h)) ∧
    Total (session { s with collEng := .list } ops) w fun r _ => ∃ h, r = .ok (rs, h)) ∧
  ∀ p, p <+: ops → Total (session s p) w fun r w' => ∃ rs h os, r = .ok (rs, h) ∧
    ListRep h w' os ∧ ∀ x ∈ os.flatten, x.keyHash = f2.hash x.key

section Sessions

variable {s : HiInitSet} {f : HashFunc} {w : World}

/-- The answers of `COLL_ENG_LIST`. -/
theorem list_answers (hs : SecondHash s f f2 cmp) (hw : w.AllocsSucceed)
    (hauto : ∀ k d, .insert k d ∈ ops → s.rehashAuto = 0) :
    Total (session { s with collEng := .list } ops) w fun r _ =>
      ∃ h, r = .ok ((mapSession cmp ops).1, h) := by
  have hcheck := lhiSetSanityCheck_plain (s := { s with collEng := .list }) hs.tableSize hs.hashFunc
    hs.keyCmp (.inl rfl)
  by_cases ha : s.rehashAuto = 0
  · refine ((listEngine δ).runs_session hcheck (.inl rfl) ha hs.equivalence hs.respects hw ops).imp ?_
    exact fun r w' ⟨h, bs, hr, _⟩ => ⟨h, hr⟩
  · have hreads : ∀ k d, MapOp.insert k d ∉ ops := fun k d hop => ha (hauto k d hop)
    refine ((listEngine δ).runs_session_reads hcheck (.inl rfl) hs.equivalence hs.respects hw
      hreads).imp ?_
    exact fun r w' ⟨h, bs, hr, _⟩ => ⟨h, hr⟩

/-- Which sessions are like those of `COLL_ENG_LIST`, as long as the table does not rehash. -/
theorem like_list_iff (hs : SecondHash s f f2 cmp) (hw : w.AllocsSucceed)
    (hauto : ∀ k d, .insert k d ∈ ops → s.rehashAuto = 0) :
    LikeList f2 s ops w ↔
      WordsMatch f2 w.keyHashWord (.empty : KeyMap cmp δ) (w.requests + createRequests) ops ∧
      (s.collEng = .listMtfHash → GetsMiss (.empty : KeyMap cmp δ) ops) := by
  have hrun : ∀ p, p <+: ops → _ := fun p hp =>
    runs_hashed_session hs hw p fun k d hop => hauto k d (hp.subset hop)
  constructor
  · rintro ⟨⟨rs, hans, hlist⟩, hstates⟩
    obtain ⟨_, w', hret, h, os, rfl, hr, hsplit⟩ := total_iff.mp (hrun ops List.prefix_rfl)
    -- Every object has its mark, so no pair is lost.
    obtain ⟨_, h', os', heq, hr', hmarked⟩ := (hstates ops List.prefix_rfl).of_run hret
    obtain rfl : h = h' := congrArg Prod.snd (Except.ok.inj heq)
    obtain rfl := hr.unique hr'
    have hwords := lost_eq_nil_iff.mp (lost_eq_nil hsplit.lost hmarked)
    -- The answers are those of the map.
    obtain ⟨_, heq⟩ := hans.of_run hret
    have hrs := congrArg Prod.fst (Except.ok.inj heq)
    obtain ⟨_, w'', hret', ⟨_, rfl⟩, _, heq'⟩ := total_iff.mp (hlist.and_returned
      ((list_answers hs hw hauto).mono_fault fun _ => False.elim))
    have hrs' := congrArg Prod.fst (Except.ok.inj heq')
    exact ⟨hwords, (hashedRun_answers_iff hs.equivalence hwords).mp (hrs.trans hrs')⟩
  · rintro ⟨hwords, hmiss⟩
    have hans := (hashedRun_answers_iff hs.equivalence hwords).mpr hmiss
    refine ⟨⟨(mapSession cmp ops).1, (hrun ops List.prefix_rfl).imp ?_, list_answers hs hw hauto⟩,
      fun p hp => (hrun p hp).imp ?_⟩
    · rintro r w' ⟨h, os, rfl, -, -⟩
      exact ⟨h, congrArg (fun rs => Except.ok (rs, h)) hans⟩
    · rintro r w' ⟨h, os, rfl, hr, hsplit⟩
      obtain ⟨q, rfl⟩ := hp
      exact ⟨_, h, os, rfl, hr, hsplit.marked_of_nil (lost_eq_nil_iff.mpr hwords.of_append)⟩

/-! ## Memory with any contents -/

/-- The first insertion of a run. -/
theorem exists_first_insert (hops : ∃ k d, MapOp.insert k d ∈ ops) :
    ∃ p k d, p ++ [MapOp.insert k d] <+: ops ∧ ∀ k d, MapOp.insert k d ∉ p := by
  induction ops with
  | nil => simp at hops
  | cons op ops ih =>
    have hcons : (∀ k d, op ≠ .insert k d) → ∃ p k d,
        p ++ [MapOp.insert k d] <+: op :: ops ∧ ∀ k d, MapOp.insert k d ∉ p := by
      intro hop
      obtain ⟨k, d, hmem⟩ := hops
      obtain ⟨p, k, d, hp, hreads⟩ := ih ⟨k, d, (List.mem_cons.mp hmem).resolve_left (hop k d).symm⟩
      refine ⟨op :: p, k, d, List.cons_prefix_cons.mpr ⟨rfl, hp⟩, fun k d hmem => ?_⟩
      rcases List.mem_cons.mp hmem with he | hmem
      · exact hop k d he.symm
      · exact hreads k d hmem
    cases op with
    | insert k d => exact ⟨[], k, d, List.prefix_append _ ops, fun _ _ => nofun⟩
    | get k => exact hcons nofun
    | remove k => exact hcons nofun

/-- Without insertions the table stays empty. -/
theorem mapRun_empty (hreads : ∀ k d, MapOp.insert k d ∉ ops) :
    (mapRun (.empty : KeyMap cmp δ) ops).2 = .empty :=
  Machine.runStep_keeps (I := fun m : KeyMap cmp δ => m = .empty)
    (fun _ _ hop hm => hm ▸ mapStep_empty fun k d he => hreads k d (he ▸ hop)) rfl

/-- An empty table does not rehash, unless its threshold is negative. -/
theorem Split.not_due {h : HiHandle δ} {os : List (List (Obj δ))}
    (hs : Split f2 ((.empty, []) : KeyMap h.keyCmp δ × List (Key × δ)) os) (hr : ListRep h w os)
    (hthr : h.rehashThreshold.below 0 = false) : ¬ h.Due := by
  have hnone : os.flatten.length = 0 := by
    have hlen := (shown_perm f2 os).length_eq
    rw [List.length_append, contents, ← List.map_flatten, List.length_map] at hlen
    rw [← hlen, ← hs.marked.size, ← List.length_map Stored.pair, ← hs.lost.length_eq]
    rfl
  rintro ⟨-, hdue⟩
  rw [hr.count, hnone] at hdue
  simp [hthr, floatOfUInt32] at hdue

/-- The first pair of a table is lost when no block has the second hash of its key. -/
theorem runs_first_insert {u : UserSettings} (hu : HashedList u f2)
    (hthr : u.rehashThreshold.below 0 = false) {h : HiHandle δ} {os : List (List (Obj δ))}
    (hset : h.toUserSettings = u) (hr : ListRep h w os)
    (hs : Split f2 ((.empty, []) : KeyMap u.keyCmp δ × List (Key × δ)) os) (hw : w.AllocsSucceed)
    {p : List (MapOp δ)} (hreads : ∀ k d, MapOp.insert k d ∉ p) {k : Key} {d : δ}
    (hword : ∀ n, f2.hash k ≠ w.keyHashWord n) :
    Total (Prog.calls MapOp.call (p ++ [.insert k d]) h) w fun r w' => ∃ os',
      ListRep r.2 w' os' ∧ ¬ ∀ x ∈ os'.flatten, x.keyHash = f2.hash x.key := by
  refine runs_calls_append ((runs_hashed_calls hu p hset hr hs hw
    fun k d hop => (hreads k d hop).elim).and_grows.imp ?_)
  rintro ⟨rs, h'⟩ w₁ ⟨hw₁, hset', -, os₁, hr₁, hs₁⟩
  rw [hashedRun_of_wordsMatch (wordsMatch_of_reads hreads), mapRun_empty hreads] at hs₁
  subst hset'
  refine runs_calls_cons ((runs_hashed_call hu hr₁ hs₁ (hw.mono hw₁) (.insert k d)
    fun _ _ _ => hs₁.not_due hr₁ hthr).imp ?_)
  rintro r w₂ ⟨-, -, -, os₂, hr₂, hs₂⟩
  refine ⟨os₂, hr₂, fun hall => ?_⟩
  have hmismatch : ¬ (MapOp.insert k d).Matches f2 (w₁.keyHashWord w₁.requests)
      (.empty : KeyMap h'.keyCmp δ) := by
    rw [World.keyHashWord_mono hw₁]
    exact fun hmeets => hword _ (hmeets fun _ => nofun)
  exact lost_of_mismatch hmismatch (lost_eq_nil hs₂.lost hall)

/-- In a world whose blocks never have the second hash of the first key that is inserted. -/
theorem not_like_list (hs : SecondHash s f f2 cmp) (hthr : s.rehashThreshold.below 0 = false)
    (hops : ∃ k d, MapOp.insert k d ∈ ops) :
    ∃ w : World, w.AllocsSucceed ∧ ¬ LikeList f2 s ops w := by
  obtain ⟨p, k, d, hp, hreads⟩ := exists_first_insert hops
  have hw := World.start_allocsSucceed fun _ _ => f2.hash k + 1
  refine ⟨_, hw, fun ⟨_, hstates⟩ => ?_⟩
  obtain ⟨_, w₁, hcreate, hw₁, h, rfl, -, hu, hr⟩ :=
    total_iff.mp (runs_hiCreate_hashed (δ := δ) hs hw).and_grows
  have hcalls := (runs_bind.mp (hstates _ hp)).of_run hcreate
  have hword : ∀ n, f2.hash k ≠ w₁.keyHashWord n := fun n => by
    rw [World.keyHashWord_mono hw₁]
    exact fun he => by simp [World.keyHashWord, World.start] at he
  obtain ⟨r, w₂, hrun, os, hr₂, hbad⟩ := total_iff.mp
    (runs_first_insert (d := d) hs.user hthr hu hr Split.empty (hw.mono hw₁) hreads hword)
  obtain ⟨_, h', os', heq, hr', hall⟩ := (runs_bind.mp hcalls).of_run hrun
  obtain rfl : r.2 = h' := congrArg Prod.snd (Except.ok.inj heq)
  exact hbad (hr₂.unique hr' ▸ hall)

/-- Whatever `rehash_auto` is, only a run without insertions is like one on `COLL_ENG_LIST` for every
content of the fresh blocks. A table that never rehashes and is given certain blocks is so exactly
where each of them has the second hash of the key that is stored in it, and
`COLL_ENG_LIST_MTF_HASH` is never asked for a stored key. -/
theorem runs_like_list_iff (hs : SecondHash s f f2 cmp) (hthr : s.rehashThreshold.below 0 = false)
    (ops : List (MapOp δ)) :
    ((∀ w : World, w.AllocsSucceed → LikeList f2 s ops w) ↔ ∀ k d, MapOp.insert k d ∉ ops) ∧
    (s.rehashAuto = 0 → ∀ w : World, w.AllocsSucceed → (LikeList f2 s ops w ↔
      WordsMatch f2 w.keyHashWord (.empty : KeyMap cmp δ) (w.requests + createRequests) ops ∧
      (s.collEng = .listMtfHash → GetsMiss (.empty : KeyMap cmp δ) ops))) := by
  refine ⟨⟨fun hall k d hop => ?_, fun hreads w hw => ?_⟩, fun hauto w hw => ?_⟩
  · obtain ⟨w, hw, hnot⟩ := not_like_list hs hthr ⟨k, d, hop⟩
    exact hnot (hall w hw)
  · refine (like_list_iff hs hw fun k d hop => (hreads k d hop).elim).mpr ?_
    exact ⟨wordsMatch_of_reads hreads, fun _ => getsMiss_of_reads hreads⟩
  · exact like_list_iff hs hw fun _ _ _ => hauto

end Sessions

/-- Two colliding keys. The first run meets the right word in both blocks, the second one in the
first block only. -/
theorem runs_like_list_iff_two :
    LikeList ⟨1, fun _ => 7⟩ twoHashes [.insert ⟨[1, 0], by decide⟩ "one",
      .insert ⟨[2, 0], by decide⟩ "two", .get ⟨[2, 0], by decide⟩, .remove ⟨[1, 0], by decide⟩,
      .get ⟨[1, 0], by decide⟩] (World.start fun _ _ => 7) ∧
    ¬ LikeList ⟨1, fun _ => 7⟩ twoHashes [.insert ⟨[1, 0], by decide⟩ "one",
      .insert ⟨[2, 0], by decide⟩ "two", .get ⟨[1, 0], by decide⟩]
      (World.start fun n _ => if n = 5 then 7 else 0) := by
  have hset := twoHashes_settings.toSecondHash
  have hthr : twoHashes.rehashThreshold.below 0 = false := by decide +kernel
  constructor
  · refine (((runs_like_list_iff hset hthr _).2 rfl _ (World.start_allocsSucceed _)).mpr ?_)
    exact ⟨⟨fun _ => rfl, fun _ => rfl, trivial, trivial, trivial, trivial⟩, nofun⟩
  · intro hlike
    have hwords := (((runs_like_list_iff hset hthr _).2 rfl _ (World.start_allocsSucceed _)).mp
      hlike).1
    exact absurd (hwords.2.1 (by decide)) (by decide)

/-- One pair is stored and looked up. `COLL_ENG_LIST_HASH` misses it in blocks full of zeros, and
`COLL_ENG_LIST_MTF_HASH` in blocks full of the second hash of its key. -/
theorem second_hash_hides_key :
    (∃ h w, (session twoHashes [.insert ⟨[1, 0], by decide⟩ "one", .get ⟨[1, 0], by decide⟩]).run
      (World.start fun _ _ => 0) = .ok (.ok ([⟨success, none⟩, ⟨hiErrNokey, none⟩], h), w)) ∧
    (∃ h w, (session { twoHashes with collEng := .listMtfHash }
      [.insert ⟨[1, 0], by decide⟩ "one", .get ⟨[1, 0], by decide⟩]).run
      (World.start fun _ _ => 7) = .ok (.ok ([⟨success, none⟩, ⟨hiErrNokey, none⟩], h), w)) ∧
    ∀ c, c = 0 ∨ c = 7 → ∃ h w, (session { twoHashes with collEng := .list }
      [.insert ⟨[1, 0], by decide⟩ "one", .get ⟨[1, 0], by decide⟩]).run
      (World.start fun _ _ => c) = .ok (.ok ([⟨success, none⟩, ⟨success, some "one"⟩], h), w) :=
  ⟨⟨_, _, rfl⟩, ⟨_, _, rfl⟩, fun _ _ => ⟨_, _, rfl⟩⟩

end Hashish
