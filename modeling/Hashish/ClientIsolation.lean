import Hashish.BucketSizes
import Hashish.KeyRaces

/-!
# Clients with keys of their own

Clients that share a table, but no key, do not disturb each other: what one of them sees is
the part of the table that has its keys, and no other client touches it. The chains, arrays
and trees that they share make no difference, except that an array bucket may run out of
slots.

* `clients_undisturbed`: as long as the trees are searched from the roots that they have, every client
  gets the answers that its calls would get alone, and when no call is in progress `no_objects` is the
  number of the entries, modulo `2 ^ 32`.
* `stale_root_misses_key`: a search from an old root.
* `shared_count_wraps`: `2 ^ 32 + 1` entries, and a `no_objects` of 1.
-/

namespace Hashish

open Hashish.Lib

variable {δ κ : Type} {w w' : World} {h : HiHandle δ} {u : UserSettings} {k : Key} {d : δ}
  {E E' F F' : List (Stored δ)} {st : Stage δ} {r : Stage δ ⊕ Result δ} {i : MapOp δ}

/-! ## What a section does, from what it finds -/

/-- What a section does to the pairs of a table. -/
inductive Change (δ : Type)
  | keep
  | add (p : Key × δ)
  | drop (p : Key × δ)

/-- The pairs `L` become `L'`. -/
def Change.Makes (L L' : List (Key × δ)) : Change δ → Prop
  | keep => L'.Perm L
  | add p => L'.Perm (p :: L)
  | drop p => L.Perm (p :: L')

/-- The stage, without the root that it has read. -/
def Stage.forget : Stage δ → Stage δ
  | seek tree _ k => seek tree none k
  | st => st

/-- The stages agree but for the roots that they have read. -/
def sameBut (r q : Stage δ ⊕ Result δ) : Prop := r.map Stage.forget id = q.map Stage.forget id

/-- What the section of a stage leads to and does, when it finds the pair `o` for its key. -/
def Stage.outcome (u : UserSettings) (o : Option (Key × δ)) :
    Stage δ → (Stage δ ⊕ Result δ) × Change δ
  | start (.insert k d) =>
    (if u.collEng = .list ∧ o ≠ none then .inr ⟨hiErrDupkey, none⟩ else .inl (rehash k d), .keep)
  | start (.get k) =>
    (if u.collEng = .rbtree then .inl (seek (u.bucket k) none k)
      else .inr (answerOf (o.map Prod.snd)), .keep)
  | seek _ _ _ => (.inr (answerOf (o.map Prod.snd)), .keep)
  | start (.remove _) =>
    match o with
    | none => (.inr ⟨hiErrNokey, none⟩, .keep)
    | some p => (if u.collEng = .rbtree then .inl (uncount ⟨success, some p.2⟩)
        else .inr ⟨success, some p.2⟩, .drop p)
  | rehash k d => (.inl (insert k d), .keep)
  | insert k d =>
    if u.collEng = .list then (.inr ⟨success, none⟩, .add (k, d))
    else if o ≠ none then (.inr ⟨hiErrDupkey, none⟩, .keep)
    else if u.collEng = .array then (.inl (fill (u.bucket k) k d), .keep)
    else (.inl count, .add (k, d))
  | fill _ k d => (.inr ⟨success, none⟩, .add (k, d))
  | count => (.inr ⟨success, none⟩, .keep)
  | uncount q => (.inr q, .keep)

/-- The pair that a search for the key of a call finds. -/
def foundPair (cmp : KeyCmp) (E : List (Stored δ)) (i : MapOp δ) : Option (Key × δ) :=
  (cmp.find E i.key).map Stored.pair

theorem resultOf_pair (o : Option (Stored δ)) :
    resultOf o = answerOf ((o.map Stored.pair).map Prod.snd) := by
  cases o <;> rfl

theorem Stage.outcome_forget {o : Option (Key × δ)} : st.forget.outcome u o = st.outcome u o := by
  cases st <;> rfl

theorem sameBut.answer {q : Result δ} (h : sameBut r (.inr q)) : r = .inr q := by
  cases r with
  | inl p => cases h
  | inr q' => exact congrArg Sum.inr (Sum.inr.inj h)

theorem sameBut.places {q : Stage δ ⊕ Result δ} (h : sameBut q r) :
    (q.getLeft?.map fun p => (i, p)).map (Prod.map id Stage.forget) =
      (r.getLeft?.map fun p => (i, p)).map (Prod.map id Stage.forget) := by
  cases q <;> cases r
  · exact congrArg (fun p => some (i, p)) (Sum.inl.inj h)
  · cases h
  · cases h
  · rfl

/-- When memory does not run out, what a section finds decides what it does. -/
theorem Stage.Effect.outcome {mayFail sees : Prop} (h : st.Effect u mayFail sees E r E')
    (hf : ¬ mayFail) (hsees : sees) (hst : st.Of i) :
    sameBut r (st.outcome u (foundPair u.keyCmp E i)).1 ∧
      (st.outcome u (foundPair u.keyCmp E i)).2.Makes (E.map Stored.pair) (E'.map Stored.pair) := by
  have heq : ∀ {q : Stage δ ⊕ Result δ}, r = q → sameBut r q := fun h => congrArg _ h
  have hadded : ∀ {done : Stage δ ⊕ Result δ} {k d}, Added mayFail E k d done r E' →
      sameBut r done ∧ (E'.map Stored.pair).Perm ((k, d) :: E.map Stored.pair) := by
    rintro done k d (⟨hr, x, hx, hp⟩ | ⟨hm, -⟩)
    · exact ⟨heq hr, by simpa [hx] using hp.map Stored.pair⟩
    · exact (hf hm).elim
  cases st with
  | start op =>
    obtain rfl : op = i := hst
    cases op with
    | insert k d =>
      refine ⟨heq ?_, h.1.map _⟩
      rw [h.2]
      simp only [Stage.outcome, foundPair, ne_eq, Option.map_eq_none_iff, MapOp.key]
    | get k =>
      obtain ⟨hp, hr⟩ := h
      refine ⟨?_, hp.map _⟩
      rw [Stage.outcome]
      split at hr
      · rename_i he
        obtain ⟨root, rfl⟩ := hr
        rw [if_pos he]
        rfl
      · rename_i he
        rw [if_neg he]
        exact heq (hr.trans (congrArg _ (resultOf_pair _)))
    | remove k =>
      rw [Stage.Effect] at h
      rw [foundPair]
      dsimp only [MapOp.key]
      cases hx : u.keyCmp.find E k with
      | none =>
        rw [hx] at h
        exact ⟨heq h.2, h.1.map _⟩
      | some x =>
        rw [hx] at h
        exact ⟨heq h.2, show (E.map Stored.pair).Perm _ from h.1.map Stored.pair⟩
  | seek tree root k =>
    obtain rfl : i = .get k := hst
    obtain ⟨hp, q, rfl, hq⟩ := h
    exact ⟨heq (congrArg _ ((hq hsees).trans (resultOf_pair _))), hp.map _⟩
  | rehash k d => exact ⟨heq h.2, h.1.map _⟩
  | insert k d =>
    obtain rfl : i = .insert k d := hst
    rw [Stage.Effect] at h
    simp only [Stage.outcome, foundPair, ne_eq, Option.map_eq_none_iff, MapOp.key]
    split at h
    · rename_i he
      rw [if_pos he]
      exact hadded h
    · rename_i he
      rw [if_neg he]
      split at h
      · rename_i hx
        rw [if_pos hx]
        exact ⟨heq h.2, h.1.map _⟩
      · rename_i hx
        rw [if_neg hx]
        split at h
        · rename_i ha
          rw [if_pos ha]
          exact ⟨heq h.2, h.1.map _⟩
        · rename_i ha
          rw [if_neg ha]
          exact hadded h
  | fill b k d => exact hadded h
  | count => exact ⟨heq h.2, h.1.map _⟩
  | uncount q => exact ⟨heq h.2, h.1.map _⟩

/-! ## The part of the table that a client sees -/

/-- The clients have keys of their own. -/
def Apart (cmp : KeyCmp) (K : κ → Key → Prop) : Prop :=
  ∀ c c' k k', c ≠ c' → K c k → K c' k' → ¬ cmp.same k k'

/-- The entries `F` are those of `E` that have keys of the client. -/
def PartOf (K : κ → Key → Prop) (c : κ) (F E : List (Stored δ)) : Prop :=
  ∃ rest : List (Key × δ), (E.map Stored.pair).Perm (F.map Stored.pair ++ rest) ∧
    (∀ x ∈ F, K c x.key) ∧ ∀ p ∈ rest, ∃ c', c' ≠ c ∧ K c' p.1

section PartOf

variable {K : κ → Key → Prop} {cmp : KeyCmp} {c c' : κ}

theorem mem_pairs {p : Key × δ} (hp : p ∈ E.map Stored.pair) : ∃ x ∈ E, x.pair = p :=
  List.mem_map.mp hp

theorem KeyCmp.Distinct.eq_of_same (heq : Equivalence cmp.same) (hd : cmp.Distinct E)
    {x y : Stored δ} (hx : x ∈ E) (hy : y ∈ E) (hs : cmp.same x.key y.key) : x = y := by
  have : Std.Symm fun x y : Stored δ => ¬ cmp.same x.key y.key :=
    ⟨fun _ _ hn hs => hn (heq.symm hs)⟩
  by_contra hne
  exact List.Pairwise.forall hd hx hy hne hs

/-- The client finds its keys in its part. -/
theorem PartOf.foundPair (h : PartOf K c F E) (hK : Apart cmp K) (heq : Equivalence cmp.same)
    (hd : cmp.Distinct F) (hi : K c i.key) : foundPair cmp E i = foundPair cmp F i := by
  obtain ⟨rest, hperm, -, hrest⟩ := h
  have hmine : ∀ x ∈ E, cmp.same i.key x.key → ∃ y ∈ F, y.pair = x.pair := by
    intro x hx hs
    rcases List.mem_append.mp (hperm.mem_iff.mp (List.mem_map_of_mem hx)) with hF | hr
    · exact mem_pairs hF
    · obtain ⟨c', hc, hk⟩ := hrest _ hr
      exact (hK c c' _ _ hc.symm hi hk hs).elim
  have hkey : ∀ {x y : Stored δ}, y.pair = x.pair → y.key = x.key := congrArg Prod.fst
  rw [Hashish.foundPair, Hashish.foundPair]
  cases hF : cmp.find F i.key with
  | none =>
    have hnone : cmp.find E i.key = none := KeyCmp.find_eq_none.mpr fun x hx hs => by
      obtain ⟨y, hy, hpair⟩ := hmine x hx hs
      exact KeyCmp.find_eq_none.mp hF y hy (hkey hpair ▸ hs)
    rw [hnone]
  | some y =>
    cases hE : cmp.find E i.key with
    | none =>
      have hy := KeyCmp.mem_of_find hF
      obtain ⟨x, hx, hpair⟩ := mem_pairs (hperm.mem_iff.mpr
        (List.mem_append_left _ (List.mem_map_of_mem hy)))
      exact (KeyCmp.find_eq_none.mp hE x hx (hkey hpair ▸ KeyCmp.same_of_find hF)).elim
    | some x =>
      obtain ⟨z, hz, hpair⟩ := hmine x (KeyCmp.mem_of_find hE) (KeyCmp.same_of_find hE)
      have hsame : cmp.same z.key y.key := by
        rw [hkey hpair]
        exact heq.trans (heq.symm (KeyCmp.same_of_find hE)) (KeyCmp.same_of_find hF)
      obtain rfl : z = y := hd.eq_of_same heq hz (KeyCmp.mem_of_find hF) hsame
      exact congrArg some hpair.symm

/-- The client changes its part as it changes the table. -/
theorem PartOf.mine (h : PartOf K c F E) {a : Change δ}
    (hE : a.Makes (E.map Stored.pair) (E'.map Stored.pair))
    (hF : a.Makes (F.map Stored.pair) (F'.map Stored.pair)) (ha : ∀ p, a = .add p → K c p.1) :
    PartOf K c F' E' := by
  obtain ⟨rest, hperm, hF', hrest⟩ := h
  have hown : ∀ {L : List (Key × δ)}, (F'.map Stored.pair).Perm L → (∀ p ∈ L, K c p.1) →
      ∀ x ∈ F', K c x.key :=
    fun hp hL x hx => hL x.pair (hp.mem_iff.mp (List.mem_map_of_mem hx))
  have hpart : ∀ p ∈ F.map Stored.pair, K c p.1 := by
    intro p hp
    obtain ⟨x, hx, rfl⟩ := mem_pairs hp
    exact hF' x hx
  cases a with
  | keep => exact ⟨rest, hE.trans (hperm.trans (hF.symm.append_right _)), hown hF hpart, hrest⟩
  | add p =>
    refine ⟨rest, hE.trans ((hperm.cons p).trans (hF.symm.append_right rest)), hown hF ?_, hrest⟩
    intro q hq
    rcases List.mem_cons.mp hq with rfl | hq
    · exact ha _ rfl
    · exact hpart q hq
  | drop p =>
    have hboth : (p :: E'.map Stored.pair).Perm (p :: (F'.map Stored.pair ++ rest)) :=
      hE.symm.trans (hperm.trans (hF.append_right rest))
    refine ⟨rest, hboth.cons_inv, fun x hx => ?_, hrest⟩
    exact hpart x.pair (hF.mem_iff.mpr (List.mem_cons_of_mem _ (List.mem_map_of_mem hx)))

/-- Another client does not change the part. -/
theorem PartOf.other (h : PartOf K c F E) (hK : Apart cmp K) (hc : c' ≠ c) (hi : K c' k)
    {a : Change δ} (hE : a.Makes (E.map Stored.pair) (E'.map Stored.pair))
    (hadd : ∀ p, a = .add p → p.1 = k) (hdrop : ∀ p, a = .drop p → cmp.same k p.1) :
    PartOf K c F E' := by
  obtain ⟨rest, hperm, hF, hrest⟩ := h
  cases a with
  | keep => exact ⟨rest, hE.trans hperm, hF, hrest⟩
  | add p =>
    refine ⟨p :: rest, hE.trans ((hperm.cons p).trans List.perm_middle.symm), hF, ?_⟩
    intro q hq
    rcases List.mem_cons.mp hq with rfl | hq
    · exact ⟨c', hc, (hadd _ rfl).symm ▸ hi⟩
    · exact hrest q hq
  | drop p =>
    have hp : p ∈ F.map Stored.pair ++ rest := hperm.mem_iff.mp (hE.mem_iff.mpr List.mem_cons_self)
    rcases List.mem_append.mp hp with hp | hp
    · obtain ⟨x, hx, rfl⟩ := mem_pairs hp
      exact (hK c' c _ _ hc hi (hF x hx) (hdrop _ rfl)).elim
    · obtain ⟨s, t, rfl⟩ := List.append_of_mem hp
      have hmove : (F.map Stored.pair ++ (s ++ p :: t)).Perm
          (p :: (F.map Stored.pair ++ (s ++ t))) := by
        rw [← List.append_assoc, ← List.append_assoc]
        exact List.perm_middle
      refine ⟨s ++ t, (hE.symm.trans (hperm.trans hmove)).cons_inv, hF, fun q hq => hrest q ?_⟩
      rcases List.mem_append.mp hq with hq | hq
      · exact List.mem_append_left _ hq
      · exact List.mem_append_right _ (List.mem_cons_of_mem _ hq)

end PartOf

/-- What a section adds has the key of the call. -/
theorem Stage.outcome_add {o : Option (Key × δ)} (hst : st.Of i) {p : Key × δ}
    (h : (st.outcome u o).2 = .add p) : p.1 = i.key := by
  cases st with
  | start op =>
    cases op with
    | insert k d => cases h
    | get k => cases h
    | remove k => cases o <;> cases h
  | seek tree root k => cases h
  | rehash k d => cases h
  | insert k d =>
    obtain rfl : i = .insert k d := hst
    rw [Stage.outcome] at h
    split at h
    · cases h
      rfl
    · split at h
      · cases h
      · split at h <;> cases h
        rfl
  | fill b k d =>
    obtain rfl : i = .insert k d := hst
    cases h
    rfl
  | count => cases h
  | uncount q => cases h

/-- What a section removes is what it has found. -/
theorem Stage.outcome_drop {o : Option (Key × δ)} {p : Key × δ}
    (h : (st.outcome u o).2 = .drop p) : o = some p := by
  cases st with
  | start op =>
    cases op with
    | insert k d => cases h
    | get k => cases h
    | remove k =>
      cases o <;> cases h
      rfl
  | seek tree root k => cases h
  | rehash k d => cases h
  | insert k d =>
    rw [Stage.outcome] at h
    split at h
    · cases h
    · split at h
      · cases h
      · split at h <;> cases h
  | fill b k d => cases h
  | count => cases h
  | uncount q => cases h

theorem same_foundPair {cmp : KeyCmp} {p : Key × δ} (h : foundPair cmp E i = some p) :
    cmp.same i.key p.1 := by
  obtain ⟨x, hx, rfl⟩ := Option.map_eq_some_iff.mp h
  exact KeyCmp.same_of_find hx

/-! ## Slots of a shared array -/

/-- The entries of a bucket are those with a key that belongs there. -/
theorem ArrayRep.countP_pairs {bs : List (List (Option (Stored δ)))} {b : Nat}
    {l : List (Option (Stored δ))} (hr : ArrayRep h bs) (hb : bs[b]? = some l) :
    (((arrayContents bs).flatten.map Stored.pair).countP fun p => h.toUserSettings.bucket p.1 = b) =
      l.reduceOption.length := by
  rw [← hr.table.countP_keys (arrayContents_getElem hb), List.countP_map, List.countP_map]
  rfl

/-- A bucket with a part of the entries has grown less. -/
theorem room_of_part {l m : List (Option (Stored δ))} {n : Nat}
    (hle : m.reduceOption.length ≤ l.reduceOption.length) (hl : ∃ i, l.length = n * 2 ^ i)
    (hm : ∃ i, m.length = n * 2 ^ i) (hfits : l.length < 2 ^ 32)
    (hroom : none ∈ l ∨ l.length < 2 ^ 31) : none ∈ m ∨ m.length < 2 ^ 31 := by
  obtain ⟨i, hi⟩ := hl
  obtain ⟨j, hj⟩ := hm
  rw [← List.reduceOption_length_lt_iff] at hroom ⊢
  have hlt := List.reduceOption_length_le l
  by_contra hno
  obtain ⟨hfull, hlarge⟩ := not_or.mp hno
  have hless : n * 2 ^ j < n * 2 ^ i := by omega
  have hlevel : j < i := by
    by_contra hge
    exact absurd hless (Nat.not_lt.mpr
      (Nat.mul_le_mul_left n (Nat.pow_le_pow_right (by decide) (Nat.le_of_not_lt hge))))
  have htwice : n * 2 ^ (j + 1) ≤ n * 2 ^ i :=
    Nat.mul_le_mul_left n (Nat.pow_le_pow_right (by decide) hlevel)
  rw [pow_succ, ← Nat.mul_assoc] at htwice
  omega

/-- A client that has room in the shared array has room alone. -/
theorem HoldsEntries.makesRoom {K : κ → Key → Prop} {c : κ} {f : HiHandle δ} (hpart : PartOf K c F E)
    (he : u.collEng = .array) (hu : u.tableSize ≠ 0) (hE : HoldsEntries u h w E)
    (hF : HoldsEntries u f w' F) (hw : w'.AllocsSucceed) (hroom : h.MakesRoom w k) :
    f.MakesRoom w' k := by
  obtain ⟨hset, ⟨he', -⟩ | ⟨-, bs, hr, hd, rfl⟩ | ⟨he', -⟩⟩ := hE
  · exact absurd (he.symm.trans he') (by decide)
  · obtain ⟨hset', ⟨he', -⟩ | ⟨-, cs, hr', hd', rfl⟩ | ⟨he', -⟩⟩ := hF
    · exact absurd (he.symm.trans he') (by decide)
    · obtain ⟨l, hb⟩ := hr.exists_bucket (hset ▸ hu) k
      obtain ⟨m, hb'⟩ := hr'.exists_bucket (hset' ▸ hu) k
      rw [HiHandle.MakesRoom, hr.hasRoom_iff hb, hr.canDoubleSlots_iff hb] at hroom
      rw [HiHandle.MakesRoom, hr'.hasRoom_iff hb', hr'.canDoubleSlots_iff hb']
      refine (room_of_part ?_ (hd l (List.mem_of_getElem? hb)) (hd' m (List.mem_of_getElem? hb'))
        (hr.fits l (List.mem_of_getElem? hb)) (hroom.imp_right And.left)).imp_right
          fun hlt => ⟨hlt, fun n _ => hw _⟩
      -- The bucket of the part has some of the entries of the shared bucket.
      obtain ⟨rest, hperm, -, -⟩ := hpart
      have hcount := hperm.countP_eq fun p => decide (u.bucket p.1 = u.bucket k)
      rw [List.countP_append] at hcount
      have hE := hr.countP_pairs hb
      have hF := hr'.countP_pairs hb'
      rw [hset] at hE
      rw [hset'] at hF
      omega
    · exact absurd (he.symm.trans he') (by decide)
  · exact absurd (he.symm.trans he') (by decide)

/-! ## Counting -/

theorem accounts_inr {c : κ} {q : Result δ} :
    inserted [(.go c i st (.inr q) : TableAct δ κ)] = 0 ∧
      removed [(.go c i st (.inr q) : TableAct δ κ)] = 0 := by
  simp [inserted, removed, Act.enters]

/-- A tree gets an entry when an insertion goes on to count it, and loses one when a removal does. -/
theorem Stage.Effect.length {mayFail sees : Prop} {c : κ} (h : st.Effect u mayFail sees E r E')
    (hfits : st.Fits u) (he : u.collEng = .rbtree) :
    E'.length + removed [(.go c i st r : TableAct δ κ)] =
      E.length + inserted [(.go c i st r : TableAct δ κ)] := by
  have hlist : u.collEng ≠ .list := by
    rw [he]
    decide
  have harray : u.collEng ≠ .array := by
    rw [he]
    decide
  cases st with
  | start op =>
    cases op with
    | insert k d =>
      obtain ⟨hp, rfl⟩ := h
      rw [if_neg fun hd => hlist hd.1, hp.length_eq]
      rfl
    | get k =>
      obtain ⟨hp, hr⟩ := h
      rw [if_pos he] at hr
      obtain ⟨root, rfl⟩ := hr
      rw [hp.length_eq]
      rfl
    | remove k =>
      rw [Stage.Effect] at h
      split at h
      · obtain ⟨hp, rfl⟩ := h
        rw [accounts_inr.1, accounts_inr.2, hp.length_eq]
      · obtain ⟨hp, rfl⟩ := h
        rw [if_pos he, hp.length_eq]
        rfl
  | seek tree root k =>
    obtain ⟨hp, q, rfl, -⟩ := h
    rw [accounts_inr.1, accounts_inr.2, hp.length_eq]
  | rehash k d =>
    obtain ⟨hp, rfl⟩ := h
    rw [hp.length_eq]
    rfl
  | insert k d =>
    rw [Stage.Effect, if_neg hlist] at h
    split at h
    · obtain ⟨hp, rfl⟩ := h
      rw [accounts_inr.1, accounts_inr.2, hp.length_eq]
    · rcases h with ⟨rfl, x, -, hp⟩ | ⟨-, ⟨q, rfl, -⟩, hp⟩
      · rw [hp.length_eq]
        rfl
      · rw [accounts_inr.1, accounts_inr.2, hp.length_eq]
  | fill b k d => exact absurd (he.symm.trans hfits.1) (by decide)
  | count =>
    obtain ⟨hp, rfl⟩ := h
    rw [accounts_inr.1, accounts_inr.2, hp.length_eq]
  | uncount q =>
    obtain ⟨hp, rfl⟩ := h
    rw [accounts_inr.1, accounts_inr.2, hp.length_eq]

section Counting

variable [DecidableEq κ] {as : List (TableAct δ κ)} {t v : SharedTable δ κ} {a : TableAct δ κ}

/-- The accounts of a tree table that stores `E`. -/
structure Booked (u : UserSettings) (as : List (TableAct δ κ)) (t : SharedTable δ κ)
    (E : List (Stored δ)) : Prop where
  rep : SharedRep u t E
  entries : E.length + removed as = inserted as
  counter : t.state.noObjects + UInt32.ofNat (countedOut as) = UInt32.ofNat (countedIn as)

/-- The counter follows the sections that count. -/
theorem Stage.tally_add (p : Stage δ) (i : MapOp δ) {m n : Nat} {x : UInt32}
    (hx : x + UInt32.ofNat n = UInt32.ofNat m) :
    p.tally x + UInt32.ofNat (n + if p.isUncount i then 1 else 0) =
      UInt32.ofNat (m + if p.isCount i then 1 else 0) := by
  cases p with
  | count =>
    show x + 1 + UInt32.ofNat n = UInt32.ofNat (m + 1)
    rw [ofNat_succ, ← hx]
    grind
  | uncount r =>
    show x - 1 + UInt32.ofNat (n + 1) = UInt32.ofNat m
    rw [ofNat_succ, ← hx]
    grind
  | _ => exact hx

theorem Booked.step (hb : Booked u as t E) (he : u.collEng = .rbtree) (hok : KeysOk u)
    (hu : u.tableSize ≠ 0) (hauto : u.rehashAuto = 0) (hroom : RoomFor t a)
    (hstep : Step (tableProtocol δ) t a v) : ∃ E', Booked u (as ++ [a]) v E' := by
  obtain ⟨-, E', hr', hact⟩ := hb.rep.step hok hu hauto hroom hstep
  have hset := hb.rep.keeps.settings
  refine ⟨E', hr', ?_, ?_⟩
  · rw [inserted_concat, removed_concat]
    cases a with
    | call c i =>
      obtain rfl : E' = E := hact
      exact hb.entries
    | go c i p r =>
      have hlen := hact.2.2.length hact.1 he (c := c) (i := i)
      have hentries := hb.entries
      omega
  · rw [countedIn_concat, countedOut_concat]
    cases hstep with
    | @call c i h => exact hb.counter
    | @go c i p r s' w' h hrun =>
      obtain ⟨hin, hout⟩ := Stage.leaves_isCount (c := c) (i := i) hrun
      have hfill : p.isFill = false := by
        cases p with
        | fill b k d => exact absurd (he.symm.trans hact.1.1) (by decide)
        | _ => rfl
      have hdue : ¬ t.state.Due := fun hd =>
        hd.1 ((congrArg UserSettings.rehashAuto hset :).trans hauto)
      obtain ⟨hmove, -⟩ := (Stage.runs_advance_nodes ((congrArg UserSettings.collEng hset :).trans he)
        hfill fun _ _ _ => hdue).of_run hrun
      show s'.noObjects + _ = _
      rw [hin, hout, hmove.tally.2]
      exact p.tally_add i hb.counter

/-- When no call is in progress the counter is the number of the entries, as far as it goes. -/
theorem counted_of_idle {s : HiInitSet} {w₀ : World} (hs : lhiSetSanityCheck s = .ok u)
    (he : sharedEngine u.collEng) (hauto : u.rehashAuto = 0) (hok : KeysOk u)
    (hcreate : (hiCreate s).run w₀ = .ok (.ok h, w))
    (hrun : Run (tableProtocol δ) (fun _ => RoomFor) (idleTable h w) as t) (hidle : t.Idle) :
    ∃ E, HoldsEntries u t.state t.world E ∧ t.state.noObjects = UInt32.ofNat E.length := by
  have hu : u.tableSize ≠ 0 := (lhiSetSanityCheck_ok hs).1
  by_cases htree : u.collEng = .rbtree
  · obtain ⟨E, hb⟩ : ∃ E, Booked u as t E := by
      have hcount : h.noObjects = 0 := ((runs_hiCreate_nodes hs htree).of_run hcreate h rfl).2.1
      refine hrun.invariant (I := fun as t => ∃ E, Booked u as t E)
        ⟨[], .start hs he hcreate, rfl, congrArg (· + 0) hcount⟩ ?_
      rintro as t a v ⟨E, hb⟩ hroom hstep
      exact hb.step htree hok hu hauto hroom hstep
    have hin : countedIn as = inserted as := hrun.leaves_eq idle_idleTable.isAt hidle.isAt
    have hout : countedOut as = removed as := hrun.leaves_eq idle_idleTable.isAt hidle.isAt
    refine ⟨E, hb.rep.keeps, ?_⟩
    have hcounter := hb.counter
    rw [hin, hout, ← hb.entries, UInt32.ofNat_add] at hcounter
    grind
  · obtain ⟨E, hr⟩ : ∃ E, SharedRep u t E := by
      refine hrun.invariant (I := fun _ t => ∃ E, SharedRep u t E) ⟨[], .start hs he hcreate⟩ ?_
      rintro as t a v ⟨E, hr⟩ hroom hstep
      obtain ⟨-, E', hr', -⟩ := hr.step hok hu hauto hroom hstep
      exact ⟨E', hr'⟩
    exact ⟨E, hr.keeps, hr.keeps.count htree⟩

end Counting

/-! ## One client in the shared table, and alone -/

section Mirror

variable [DecidableEq κ] {K : κ → Key → Prop} {c : κ} {as : List (TableAct δ κ)}
  {t v f : SharedTable δ κ} {a : TableAct δ κ}

/-- The clients call with keys of their own. -/
def OwnKeys (K : κ → Key → Prop) (a : TableAct δ κ) : Prop :=
  ∀ c i, a = .call c i → K c i.key

/-- The shared table `t`, and the table `f` that only the client `c` has used. -/
structure Mirror (u : UserSettings) (K : κ → Key → Prop) (w : World) (c : κ) (t f : SharedTable δ κ)
    (E F : List (Stored δ)) : Prop where
  shared : SharedRep u t E
  alone : SharedRep u f F
  part : PartOf K c F E
  distinct : u.keyCmp.Distinct F
  place : (f.pending c).map (Prod.map id Stage.forget) = (t.pending c).map (Prod.map id Stage.forget)
  sees : ∀ i p, f.pending c = some (i, p) → p.SeesRoot f.state
  ready : ∀ i p, f.pending c = some (i, p) → p.Ready u F
  own : ∀ c' i p, t.pending c' = some (i, p) → K c' i.key
  grown : w ≤ t.world ∧ w ≤ f.world

theorem Mirror.own_step (hm : Mirror u K w c t f E F) (hown : OwnKeys K a)
    (hstep : Step (tableProtocol δ) t a v) :
    ∀ c' i p, v.pending c' = some (i, p) → K c' i.key := by
  intro c' i p hp
  rcases hstep.pending_call hp with rfl | ⟨p', hp'⟩
  · exact hown c' i rfl
  · exact hm.own c' i p' hp'

/-- The act of another client. -/
theorem Mirror.other (hm : Mirror u K w c t f E F) (hw : w.AllocsSucceed) (hok : KeysOk u)
    (hu : u.tableSize ≠ 0) (hauto : u.rehashAuto = 0) (hK : Apart u.keyCmp K) (hown : OwnKeys K a)
    (hroom : RoomFor t a) (hseen : RootSeen t a) (hstep : Step (tableProtocol δ) t a v)
    (hc : a.client ≠ c) : ∃ E', Mirror u K w c v f E' F := by
  obtain ⟨hgrown, E', hr', hact⟩ := hm.shared.step hok hu hauto hroom hstep
  have hpart : PartOf K c F E' := by
    cases a with
    | call c' i =>
      obtain rfl : E' = E := hact
      exact hm.part
    | go c' i p r =>
      have hno : ¬ t.world.SomeFailed v.world := fun hf => hf.not_allocsSucceed (hw.mono hm.grown.1)
      obtain ⟨-, hmakes⟩ := hact.2.2.outcome hno hseen hact.2.1
      have hkey : K c' i.key := by
        cases hstep with
        | go h _ => exact hm.own c' i p h
      exact hm.part.other hK hc hkey hmakes (fun _ => Stage.outcome_add hact.2.1)
        fun _ hp => same_foundPair (Stage.outcome_drop hp)
  refine ⟨E', hr', hm.alone, hpart, hm.distinct, ?_, hm.sees, hm.ready, hm.own_step hown hstep,
    hm.grown.1.trans hgrown, hm.grown.2⟩
  rw [hm.place, hstep.pending_other hc.symm]

omit [DecidableEq κ] in
omit [DecidableEq κ] in
/-- What has room in the shared table has room in the other one. -/
theorem Mirror.room (hm : Mirror u K w c t f E F) (hw : w.AllocsSucceed) (hu : u.tableSize ≠ 0)
    {p p' : Stage δ} {q : Stage δ ⊕ Result δ} (hfits : p'.Fits u) (hsame : p'.forget = p.forget)
    (hroom : RoomFor t (.go c i p r)) : RoomFor f (.go c i p' q) := by
  cases p' with
  | fill b k d =>
    have hp : p = .fill b k d := by
      cases p <;> first | exact hsame.symm | cases hsame
    subst hp
    exact HoldsEntries.makesRoom hm.part hfits.1 hu hm.shared.keeps hm.alone.keeps
      (hw.mono hm.grown.2) hroom
  | _ => trivial

omit [DecidableEq κ] in
/-- Where the client stands alone. -/
theorem Mirror.stands (hm : Mirror u K w c t f E F) {p : Stage δ} (hp : t.pending c = some (i, p)) :
    ∃ p', f.pending c = some (i, p') ∧ p'.forget = p.forget := by
  have hplace := hm.place
  rw [hp] at hplace
  obtain ⟨⟨i', p'⟩, hp', heq⟩ := Option.map_eq_some_iff.mp hplace
  obtain ⟨rfl, hforget⟩ := Prod.mk.inj heq
  exact ⟨p', hp', hforget⟩

/-- The client's own act: alone it makes one like it, with the same answer. -/
theorem Mirror.mine (hm : Mirror u K w c t f E F) (hw : w.AllocsSucceed) (hok : KeysOk u)
    (hu : u.tableSize ≠ 0) (hauto : u.rehashAuto = 0) (hK : Apart u.keyCmp K) (hown : OwnKeys K a)
    (hroom : RoomFor t a) (hseen : RootSeen t a) (hstep : Step (tableProtocol δ) t a v)
    (hc : a.client = c) :
    ∃ b f' E' F', b.client = c ∧ b.answer? c = a.answer? c ∧ Step (tableProtocol δ) f b f' ∧
      Mirror u K w c v f' E' F' := by
  have hown' := hm.own_step hown hstep
  obtain ⟨hgrown, E', hr', hact⟩ := hm.shared.step hok hu hauto hroom hstep
  cases hstep with
  | @call c' i h =>
    obtain rfl : c' = c := hc
    obtain rfl : E' = E := hact
    have hidle : f.pending c' = none := by
      have hplace := hm.place
      rw [h] at hplace
      exact Option.map_eq_none_iff.mp hplace
    have hstep' : Step (tableProtocol δ) f (.call c' i) _ := .call hidle
    obtain ⟨-, F', hf', rfl⟩ := hm.alone.step hok hu hauto (a := .call c' i) trivial hstep'
    have hpending := hstep'.pending_self
    refine ⟨_, _, E', F', rfl, rfl, hstep', hr', hf', hm.part, hm.distinct, ?_, ?_, ?_, hown', hm.grown⟩
    · dsimp only
      rw [Function.update_self, Function.update_self]
    · intro i' p hp
      cases hpending.symm.trans hp
      trivial
    · intro i' p hp
      cases hpending.symm.trans hp
      trivial
  | @go c' i p r s' w' h hrun =>
    obtain rfl : c' = c := hc
    obtain ⟨p', hplace, hforget⟩ := hm.stands h
    obtain ⟨hfits, hof⟩ := hm.alone.stages c' i p' hplace
    have hroom' : ∀ {q}, RoomFor f (.go c' i p' q) := hm.room hw hu hfits hforget hroom
    have hfill : ∀ b k d, p' = .fill b k d → f.state.MakesRoom f.world k := by
      rintro b k d rfl
      exact hroom' (q := r)
    have hsees := hm.sees i p' hplace
    obtain ⟨⟨q, s₁⟩, w₁, hrun', -⟩ :=
      total_iff.mp (hm.alone.keeps.total_advance hok hu hauto hfits hfill hsees)
    have hstep' : Step (tableProtocol δ) f (.go c' i p' q) _ := .go hplace hrun'
    obtain ⟨hgrown', F', hf', -, -, heffect'⟩ := hm.alone.step hok hu hauto hroom' hstep'
    -- Both find the same, so both do the same.
    have hfound := hm.part.foundPair hK hok.equivalence hm.distinct (hm.own c' i p h)
    obtain ⟨hr, hmakes⟩ :=
      hact.2.2.outcome (fun hf => hf.not_allocsSucceed (hw.mono hm.grown.1)) hseen hact.2.1
    obtain ⟨hq, hmakes'⟩ :=
      heffect'.outcome (fun hf => hf.not_allocsSucceed (hw.mono hm.grown.2)) hsees hof
    rw [hfound, ← Stage.outcome_forget, ← hforget, Stage.outcome_forget] at hr hmakes
    have hsame : sameBut q r := hq.trans hr.symm
    have hready := hm.ready i p' hplace
    have hnext : ∀ {i' p''}, Function.update f.pending c' (q.getLeft?.map fun p => (i, p)) c' =
        some (i', p'') → q = .inl p'' := by
      intro i' p'' hp
      rw [Function.update_self] at hp
      obtain ⟨p₁, hq', hp⟩ := Option.map_eq_some_iff.mp hp
      cases hp
      simpa using hq'
    refine ⟨_, _, E', F', rfl, ?_, hstep', hr', hf', hm.part.mine hmakes hmakes' ?_, ?_, ?_, ?_, ?_,
      hown', hm.grown.1.trans hgrown, hm.grown.2.trans hgrown'⟩
    · cases r with
      | inr o => rw [hsame.answer]; rfl
      | inl p₁ =>
        cases q with
        | inl p₂ => rfl
        | inr o => cases hsame
    · intro x hx
      rw [Stage.outcome_add hof hx]
      exact hm.own c' i p h
    · refine heffect'.distinct hok.equivalence hm.distinct ?_ ?_
      · rintro k d rfl
        exact hready
      · rintro b k d rfl
        exact hready
    · dsimp only
      rw [Function.update_self, Function.update_self]
      exact hsame.places
    · exact fun i' p'' hp => (Stage.advance_next.of_run hrun' p'' (hnext hp)).sees
    · exact fun i' p'' hp => heffect'.ready hready p'' (hnext hp)

/-- The answers of one client are those of a run of it alone. -/
theorem mirrored {s : HiInitSet} {w₀ : World} (hs : lhiSetSanityCheck s = .ok u)
    (he : sharedEngine u.collEng) (hauto : u.rehashAuto = 0) (hok : KeysOk u)
    (hw : w.AllocsSucceed) (hK : Apart u.keyCmp K) (hcreate : (hiCreate s).run w₀ = .ok (.ok h, w))
    (hrun : Run (tableProtocol δ) (fun _ t a => OwnKeys K a ∧ RoomFor t a ∧ RootSeen t a)
      (idleTable h w) as t) (c : κ) :
    ∃ bs f E F, Run (tableProtocol δ) (fun _ _ _ => True) (idleTable h w) bs f ∧
      (∀ b ∈ bs, b.client = c) ∧ answers c bs = answers c as ∧ Mirror u K w c t f E F := by
  have hu : u.tableSize ≠ 0 := (lhiSetSanityCheck_ok hs).1
  induction hrun with
  | nil =>
    have hstart : SharedRep u (idleTable h w : SharedTable δ κ) [] := .start hs he hcreate
    exact ⟨[], _, [], [], .nil, nofun, rfl, hstart, hstart, ⟨[], .refl _, by simp, by simp⟩, .nil, rfl,
      nofun, nofun, nofun, le_rfl, le_rfl⟩
  | @snoc as t v a hrun hact hstep ih =>
    obtain ⟨bs, f, E, F, hrun', honly, hans, hm⟩ := ih
    obtain ⟨hown, hroom, hseen⟩ := hact
    by_cases hc : a.client = c
    · obtain ⟨b, f', E', F', hb, hanswer, hstep', hm'⟩ :=
        hm.mine hw hok hu hauto hK hown hroom hseen hstep hc
      refine ⟨bs ++ [b], f', E', F', hrun'.snoc trivial hstep', fun b' hb' => ?_, ?_, hm'⟩
      · rcases List.mem_append.mp hb' with hb' | hb'
        · exact honly b' hb'
        · rw [List.mem_singleton.mp hb', hb]
      · rw [answers_concat, answers_concat, hans, hanswer]
    · obtain ⟨E', hm'⟩ := hm.other hw hok hu hauto hK hown hroom hseen hstep hc
      refine ⟨bs, f, E', F, hrun', honly, ?_, hm'⟩
      rw [answers_concat, hans, Act.answer?_of_ne hc]
      exact (List.append_nil _).symm

end Mirror

/-! ## All clients -/

section Clients

variable [DecidableEq κ] {K : κ → Key → Prop} {as : List (TableAct δ κ)} {t : SharedTable δ κ}

/-- Clients that use different keys, on a list, an array or a tree that does not rehash: as long as
each search of a tree sees the root that it has read, each client gets the answers that its calls get
when it is alone. Whenever no call is in progress, `no_objects` is the number of the entries, if that
is below `2 ^ 32`. -/
theorem clients_undisturbed {s : HiInitSet} {w₀ : World} (hs : lhiSetSanityCheck s = .ok u)
    (he : sharedEngine u.collEng) (hauto : u.rehashAuto = 0) (hok : KeysOk u)
    (hw : w₀.AllocsSucceed) (hK : Apart u.keyCmp K) (hcreate : (hiCreate s).run w₀ = .ok (.ok h, w))
    (hrun : Run (tableProtocol δ) (fun _ t a => OwnKeys K a ∧ RoomFor t a ∧ RootSeen t a)
      (idleTable h w) as t) :
    (∀ c, ∃ h' w', (Prog.calls MapOp.call ((answers c as).map Prod.fst) h).run w =
      .ok (((answers c as).map Prod.snd, h'), w')) ∧
    (t.Idle → ∃ E, HoldsEntries u t.state t.world E ∧ t.state.noObjects = UInt32.ofNat E.length ∧
      (t.state.noObjects.toNat = E.length ↔ E.length < 2 ^ 32)) := by
  refine ⟨fun c => ?_, fun hidle => ?_⟩
  · have hw' : w.AllocsSucceed := hw.mono ((hiCreate s).grows hcreate)
    obtain ⟨bs, f, -, -, hrun', honly, hans, -⟩ := mirrored hs he hauto hok hw' hK hcreate hrun c
    have hcaught : Caught (tableProtocol δ) .nontermination 4 Stage.rank c (idleTable h w) bs f :=
      hrun'.calls_of_alone (fun _ => le_rfl)
        (fun _ _ _ => Stage.advance_next.imp fun _ _ hn => ⟨Stage.rank_pos, fun p hp => (hn p hp).rank⟩)
        rfl honly
    obtain ⟨h', w', hcalls, -⟩ := hcaught
    rw [hans, funext fun i => funext fun h => alone_op i h] at hcalls
    exact ⟨h', w', hcalls⟩
  · obtain ⟨E, hkeeps, hcount⟩ :=
      counted_of_idle hs he hauto hok hcreate (hrun.imp fun _ _ _ h => h.2.1) hidle
    refine ⟨E, hkeeps, hcount, ?_⟩
    rw [hcount, UInt32.toNat_ofNat']
    omega

end Clients

/-- One client has the keys that are equal to 2, the other one has all others. -/
def ownsTwo (c : Bool) (k : Key) : Prop :=
  c = !decide (KeyCmp.same hiCmpUint16T ⟨[2, 0], by decide⟩ k)

instance (c : Bool) (k : Key) : Decidable (ownsTwo c k) := inferInstanceAs (Decidable (_ = _))

theorem ownsTwo_apart : Apart hiCmpUint16T ownsTwo := by
  intro c c' k k' hne hk hk' hs
  have heq := orderOn_hiCmpUint16T.equivalence
  have hiff : KeyCmp.same hiCmpUint16T ⟨[2, 0], by decide⟩ k ↔
      KeyCmp.same hiCmpUint16T ⟨[2, 0], by decide⟩ k' :=
    ⟨fun h => heq.trans h hs, fun h => heq.trans h (heq.symm hs)⟩
  refine hne (hk.trans (Eq.trans ?_ hk'.symm))
  rw [decide_eq_decide.mpr hiff]

/-- A test for keys of their own that array tables do not pass. -/
def usesOwnKeys (a : TableAct δ Bool) : Bool :=
  match a with
  | .call c i => decide (ownsTwo c i.key)
  | .go _ _ (.fill _ _ _) _ => false
  | _ => true

theorem usesOwnKeys_sound {t : SharedTable δ Bool} {a : TableAct δ Bool} (h : usesOwnKeys a = true) :
    OwnKeys ownsTwo a ∧ RoomFor t a := by
  cases a with
  | call c i =>
    refine ⟨?_, trivial⟩
    rintro c' i' heq
    cases heq
    exact of_decide_eq_true h
  | go c i p r =>
    refine ⟨fun _ _ heq => (by cases heq), ?_⟩
    cases p with
    | fill b k d => cases h
    | _ => trivial

/-- Both insert, and one of them looks for its key while the other one inserts again. -/
theorem clients_undisturbed_two :
    ∃ (h : HiHandle String) (w : World) (as : List (TableAct String Bool)) (t : SharedTable String Bool)
      (E : List (Stored String)),
      (hiCreate oneTree).run (World.start fun _ _ => 0) = .ok (.ok h, w) ∧
      Run (tableProtocol String) (fun _ t a => OwnKeys ownsTwo a ∧ RoomFor t a ∧ RootSeen t a)
        (idleTable h w) as t ∧
      (answers false as).map Prod.snd = [⟨success, none⟩, ⟨success, some "two"⟩] ∧
      (answers true as).map (fun q => q.2.status) = [success, hiErrDupkey] ∧
      (∀ c, ∃ h' w', (Prog.calls MapOp.call ((answers c as).map Prod.fst) h).run w =
        .ok (((answers c as).map Prod.snd, h'), w')) ∧
      HoldsEntries t.state.toUserSettings t.state t.world E ∧ t.state.noObjects = 2 ∧
      t.state.noObjects = UInt32.ofNat E.length := by
  obtain ⟨u, hs, heng, hauto, hf, hcmp⟩ := oneTree_settings
  obtain ⟨h, w, as, t, hcreate, hfollow, h₀, h₁, ⟨hp₀, hp₁⟩, hcount⟩ :
      ∃ (h : HiHandle String) (w : World) (as : List (TableAct String Bool))
        (t : SharedTable String Bool),
      (hiCreate oneTree).run (World.start fun _ _ => 0) = .ok (.ok h, w) ∧
      (tableProtocol String).follow (fun _ t a => usesOwnKeys a && decide (RootSeen t a))
        [(false, some (.insert ⟨[2, 0], by decide⟩ "two")), (false, none), (false, none),
          (true, some (.insert ⟨[1, 0], by decide⟩ "one")), (true, none), (true, none), (false, none),
          (true, none), (false, none), (true, none),
          (true, some (.insert ⟨[1, 0], by decide⟩ "uno")), (true, none), (true, none),
          (false, some (.get ⟨[2, 0], by decide⟩)), (false, none), (true, none), (false, none)] []
          (idleTable h w) = some (as, t) ∧
      (answers false as).map Prod.snd = [⟨success, none⟩, ⟨success, some "two"⟩] ∧
      (answers true as).map (fun q => q.2.status) = [success, hiErrDupkey] ∧
      (t.pending false = none ∧ t.pending true = none) ∧ t.state.noObjects = 2 :=
    ⟨_, _, _, _, rfl, rfl, rfl, rfl, ⟨rfl, rfl⟩, rfl⟩
  have hrun : Run (tableProtocol String)
      (fun _ t a => OwnKeys ownsTwo a ∧ RoomFor t a ∧ RootSeen t a) (idleTable h w) as t :=
    (Run.nil.of_follow hfollow).imp fun _ t a hboth => by
      obtain ⟨hown, hseen⟩ := Bool.and_eq_true_iff.mp hboth
      obtain ⟨hown, hroom⟩ := usesOwnKeys_sound (t := t) hown
      exact ⟨hown, hroom, of_decide_eq_true hseen⟩
  have hok : KeysOk u := by
    rw [KeysOk, hf, hcmp, heng]
    exact oneTree_contract
  have hK : Apart u.keyCmp ownsTwo := hcmp ▸ ownsTwo_apart
  have hboth := clients_undisturbed hs (.inr (.inr heng)) hauto hok (World.start_allocsSucceed _) hK
    hcreate hrun
  have hidle : t.Idle := fun c => by
    cases c
    · exact hp₀
    · exact hp₁
  obtain ⟨E, hkeeps, hentries, -⟩ := hboth.2 hidle
  exact ⟨h, w, as, t, E, hcreate, hrun, h₀, h₁, hboth.1, hkeeps.settings.symm ▸ hkeeps, hcount,
    hentries⟩

/-- One client has stored 2, below the root 1, and looks for it. Between its read of the root and its
section the other client inserts 3, and the rotation leaves 2 above 1. The search does not find 2,
although nobody but its client uses this key. -/
theorem stale_root_misses_key :
    ∃ (h : HiHandle String) (w : World) (as : List (TableAct String Bool))
      (t : SharedTable String Bool),
      (hiCreate oneTree).run (World.start fun _ _ => 0) = .ok (.ok h, w) ∧
      Apart hiCmpUint16T ownsTwo ∧
      Run (tableProtocol String) (fun _ t a => OwnKeys ownsTwo a ∧ RoomFor t a) (idleTable h w) as t ∧
      (answers false as).map Prod.snd = [⟨success, none⟩, ⟨hiErrNokey, none⟩] ∧
      ∃ h' w', (Prog.calls MapOp.call ((answers false as).map Prod.fst) h).run w =
        .ok (([⟨success, none⟩, ⟨success, some "two"⟩], h'), w') := by
  obtain ⟨h, w, as, t, hcreate, hfollow, hanswers, halone⟩ :
      ∃ (h : HiHandle String) (w : World) (as : List (TableAct String Bool))
        (t : SharedTable String Bool),
      (hiCreate oneTree).run (World.start fun _ _ => 0) = .ok (.ok h, w) ∧
      (tableProtocol String).follow (fun _ _ a => usesOwnKeys a)
        [(true, some (.insert ⟨[1, 0], by decide⟩ "one")), (true, none), (true, none), (true, none),
          (true, none), (false, some (.insert ⟨[2, 0], by decide⟩ "two")), (false, none),
          (false, none), (false, none), (false, none),
          (true, some (.insert ⟨[3, 0], by decide⟩ "three")), (true, none), (true, none),
          (false, some (.get ⟨[2, 0], by decide⟩)), (false, none), (true, none), (false, none)] []
          (idleTable h w) = some (as, t) ∧
      (answers false as).map Prod.snd = [⟨success, none⟩, ⟨hiErrNokey, none⟩] ∧
      ∃ h' w', (Prog.calls MapOp.call ((answers false as).map Prod.fst) h).run w =
        .ok (([⟨success, none⟩, ⟨success, some "two"⟩], h'), w') :=
    ⟨_, _, _, _, rfl, rfl, rfl, _, _, rfl⟩
  have hrun := (Run.nil.of_follow hfollow).imp fun _ t _ => usesOwnKeys_sound (t := t)
  exact ⟨h, w, as, t, hcreate, ownsTwo_apart, hrun, hanswers, halone⟩

/-- A session is a run of one client. -/
theorem run_of_session {s : HiInitSet} {ops : List (MapOp δ)} {w₀ : World} {rs : List (Result δ)}
    {h' : HiHandle δ} (hrun : (session s ops).run w₀ = .ok (.ok (rs, h'), w')) :
    ∃ (h : HiHandle δ) (w : World) (as : List (TableAct δ Unit)) (t : SharedTable δ Unit),
      (hiCreate s).run w₀ = .ok (.ok h, w) ∧
      Run (tableProtocol δ) (fun _ _ _ => True) (idleTable h w) as t ∧ t.Idle ∧ t.state = h' ∧
      t.world = w' := by
  obtain ⟨created, w, hcreate, hcalls⟩ := Prog.run_bind.mp hrun
  cases created with
  | error e => cases hcalls
  | ok h =>
    obtain ⟨⟨rs', h''⟩, w'', hcalls, hlast⟩ := Prog.run_bind.mp hcalls
    cases hlast
    rw [← funext fun i => funext fun h => alone_op i h] at hcalls
    have hstart : Run (tableProtocol δ) (fun _ _ _ => True) (idleTable h w : SharedTable δ Unit) []
        (idleTable h w) := .nil
    obtain ⟨as, t, hrun', hidle, hstate, hworld, -⟩ :=
      hstart.of_calls (c := ()) (fun _ _ _ _ => trivial) idle_idleTable hcalls
    exact ⟨h, w, as, t, hcreate, hrun', hidle, hstate, hworld⟩

/-- One client has inserted the numbers up to `2 ^ 32`; `no_objects` is 1. -/
theorem shared_count_wraps :
    ∃ (h : HiHandle Unit) (w : World) (as : List (TableAct Unit Unit)) (t : SharedTable Unit Unit)
      (E : List (Stored Unit)),
      (hiCreate splitList).run (World.start fun _ _ => 0) = .ok (.ok h, w) ∧ w.AllocsSucceed ∧
      Run (tableProtocol Unit) (fun _ _ _ => True) (idleTable h w) as t ∧ t.Idle ∧
      HoldsEntries t.state.toUserSettings t.state t.world E ∧ E.length = 2 ^ 32 + 1 ∧
      t.state.noObjects = 1 := by
  obtain ⟨M, hM⟩ : ∃ M, 2 ^ 32 = M := ⟨_, rfl⟩
  obtain ⟨r, w', hrun, rs, h', l₀, l₁, rfl, -, htable⟩ := total_iff.mp (runs_splitInsertions hM)
  obtain ⟨h, w, as, t, hcreate, hrun', hidle, rfl, rfl⟩ := run_of_session hrun
  obtain ⟨os, hrep, hos⟩ := htable.rep
  have hlen : [l₀, l₁].flatten.length = M + 1 := by
    simp [htable.first, htable.second]
  have hkeeps : HoldsEntries t.state.toUserSettings t.state t.world [l₀, l₁].flatten :=
    ⟨rfl, .inl ⟨htable.engine, os, hrep, by rw [hos]⟩⟩
  have hlist : t.state.collEng ≠ .rbtree := by
    rw [htable.engine]
    decide
  refine ⟨h, w, as, t, _, hcreate, ?_, hrun', hidle, hkeeps, by rw [hlen, hM], ?_⟩
  · exact (World.start_allocsSucceed _).mono ((hiCreate splitList).grows hcreate)
  · rw [hkeeps.count hlist, hlen, ← hM]
    rfl

end Hashish
