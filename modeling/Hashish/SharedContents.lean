import Hashish.ArrayHoles
import Hashish.RehashSuccess
import Hashish.Sections

/-!
# What a section does to the contents

`HoldsEntries u h w E` says that the table with the settings `u` stores the entries `E`, whatever
calls are in progress. A tree table may count its entries late, so its counter is left out.

* `HoldsEntries.runs_advance`: what each section does to the entries, for `COLL_ENG_LIST`,
  `COLL_ENG_ARRAY` and `COLL_ENG_RBTREE` without rehashing.
-/

namespace Hashish

open Hashish.Lib

variable {δ : Type} {w w' : World} {h : HiHandle δ} {u : UserSettings} {k : Key} {d : δ}

/-! ## Trees and the counter -/

/-- The handle with another counter. -/
def HiHandle.recount (h : HiHandle δ) (n : UInt32) : HiHandle δ := { h with noObjects := n }

section Recount

variable {n : UInt32} {key : Bytes} {keylen : UInt32}

theorem recount_rbDescend {fuel : Nat} {p parent : Option Ptr} {link : RbLink} :
    rbDescend (h.recount n) key fuel p parent link = rbDescend h key fuel p parent link := by
  induction fuel generalizing p parent link with
  | zero => rfl
  | succ fuel ih =>
    cases p with
    | none => rfl
    | some p =>
      simp only [rbDescend, ih]
      rfl

theorem recount_descend {tree : Nat} : (h.recount n).descend tree key = h.descend tree key := by
  unfold HiHandle.descend
  simp only [recount_rbDescend]
  rfl

theorem recount_onTree {tree : Nat} {f : RbRoot → Except Fault RbRoot} :
    (h.recount n).onTree tree f = (fun h' => h'.recount n) <$> h.onTree tree f := by
  unfold HiHandle.onTree
  simp only [map_bind, map_pure]
  rfl

theorem recount_insertNode :
    lhiInsertRbtreeNode (h.recount n) key keylen d =
      (fun r => (r.1, r.2.recount n)) <$> lhiInsertRbtreeNode h key keylen d := by
  unfold lhiInsertRbtreeNode
  simp only [map_bind, recount_descend]
  refine bind_congr fun tree => bind_congr fun t => bind_congr fun _ => bind_congr fun r => ?_
  cases r with
  | found p => simp only [map_bind, map_pure]
  | missing parent link =>
    simp only [map_bind]
    refine bind_congr fun e => ?_
    cases e with
    | none => simp only [map_bind, map_pure]
    | some e =>
      simp only [recount_onTree, map_eq_pure_bind, bind_assoc, pure_bind]
      rfl

theorem recount_removeNode :
    lhiRemoveRbtreeNode (h.recount n) key keylen =
      (fun r => (r.1, r.2.recount n)) <$> lhiRemoveRbtreeNode h key keylen := by
  unfold lhiRemoveRbtreeNode
  simp only [map_bind, recount_descend]
  refine bind_congr fun tree => bind_congr fun t => bind_congr fun _ => bind_congr fun r => ?_
  cases r with
  | missing parent link => simp only [map_bind, map_pure]
  | found p =>
    simp only [recount_onTree, map_eq_pure_bind, bind_assoc, pure_bind]
    rfl

theorem recount_getNode {tree : Nat} {root : Option Ptr} :
    lhiGetRbtreeNode (h.recount n) tree root key = lhiGetRbtreeNode h tree root key := by
  unfold lhiGetRbtreeNode
  simp only [recount_rbDescend]
  rfl

theorem recount_get : lhiGetRbtree (h.recount n) key keylen = lhiGetRbtree h key keylen := by
  unfold lhiGetRbtree
  simp only [recount_getNode]
  rfl

end Recount

/-! ## Contents -/

/-- The engines that are shared here. -/
def sharedEngine (e : CollEng) : Prop := e = .list ∨ e = .array ∨ e = .rbtree

/-- The buckets were made with `n` slots and have grown by doubling. -/
def Doubled (n : Nat) (bs : List (List (Option (Stored δ)))) : Prop :=
  ∀ l ∈ bs, ∃ i, l.length = n * 2 ^ i

theorem Doubled.grow {n : Nat} {bs bs' : List (List (Option (Stored δ)))} (h : Doubled n bs)
    (hg : ArrayRep.GrowsFrom bs bs') : Doubled n bs' := by
  intro m hm
  obtain ⟨l, hl, hlen⟩ := hg m hm
  obtain ⟨i, hi⟩ := h l hl
  rcases hlen with hlen | ⟨-, hlen⟩
  · exact ⟨i, hlen.trans hi⟩
  · exact ⟨i + 1, by rw [hlen, hi, pow_succ]; ring⟩

/-- The table was made with the settings `u` and stores the entries `E`. -/
structure HoldsEntries (u : UserSettings) (h : HiHandle δ) (w : World) (E : List (Stored δ)) :
    Prop where
  settings : h.toUserSettings = u
  stores :
    (u.collEng = .list ∧ ∃ os, ListRep h w os ∧ (contents os).flatten = E) ∨
    (u.collEng = .array ∧ ∃ bs, ArrayRep h bs ∧ Doubled u.collEngArraySize.toNat bs ∧
      (arrayContents bs).flatten = E) ∨
    (u.collEng = .rbtree ∧ ∃ ts, RbRep (h.recount (UInt32.ofNat E.length)) w ts ∧
      (∀ t ∈ ts, Sorted u.keyCmp t) ∧ (treeContents ts).flatten = E)

/-- An insertion puts a new entry with `k` and `d` to the entries, and leads to `done`. It may run
out of memory when `mayFail` holds. -/
def Added (mayFail : Prop) (E : List (Stored δ)) (k : Key) (d : δ) (done r : Stage δ ⊕ Result δ)
    (E' : List (Stored δ)) : Prop :=
  (r = done ∧ ∃ x : Stored δ, x.pair = (k, d) ∧ E'.Perm (x :: E)) ∨
  (mayFail ∧ (∃ q : Result δ, r = .inr q ∧ q.Exhausted) ∧ E'.Perm E)

/-- What the section of a stage makes of the entries `E`, and what it leads to. A search from a root
that the tree no longer has, that is without `sees`, may answer anything. -/
def Stage.Effect (u : UserSettings) (mayFail sees : Prop) (E : List (Stored δ)) (st : Stage δ)
    (r : Stage δ ⊕ Result δ) (E' : List (Stored δ)) : Prop :=
  match st with
  | start (.insert k d) => E'.Perm E ∧
      r = if u.collEng = .list ∧ u.keyCmp.find E k ≠ none then .inr ⟨hiErrDupkey, none⟩
        else .inl (rehash k d)
  | start (.get k) => E'.Perm E ∧
      if u.collEng = .rbtree then ∃ root, r = .inl (seek (u.bucket k) root k)
      else r = .inr (resultOf (u.keyCmp.find E k))
  | seek _ _ k => E'.Perm E ∧ ∃ q, r = .inr q ∧ (sees → q = resultOf (u.keyCmp.find E k))
  | start (.remove k) =>
    match u.keyCmp.find E k with
    | none => E'.Perm E ∧ r = .inr ⟨hiErrNokey, none⟩
    | some x => E.Perm (x :: E') ∧
        r = if u.collEng = .rbtree then .inl (uncount ⟨success, some x.data⟩)
          else .inr ⟨success, some x.data⟩
  | rehash k d => E'.Perm E ∧ r = .inl (insert k d)
  | insert k d =>
    if u.collEng = .list then Added mayFail E k d (.inr ⟨success, none⟩) r E'
    else if u.keyCmp.find E k ≠ none then E'.Perm E ∧ r = .inr ⟨hiErrDupkey, none⟩
    else if u.collEng = .array then E'.Perm E ∧ r = .inl (fill (u.bucket k) k d)
    else Added mayFail E k d (.inl count) r E'
  | fill _ k d => Added mayFail E k d (.inr ⟨success, none⟩) r E'
  | count => E'.Perm E ∧ r = .inr ⟨success, none⟩
  | uncount q => E'.Perm E ∧ r = .inr q

/-- The stage is one of the engine, and the bucket it remembers is the one of the key. -/
def Stage.Fits (u : UserSettings) : Stage δ → Prop
  | seek tree _ k => u.collEng = .rbtree ∧ tree = u.bucket k
  | fill bucket k _ => u.collEng = .array ∧ bucket = u.bucket k
  | count | uncount _ => u.collEng = .rbtree
  | _ => True

/-- The bucket of an array table has a free slot for the key, or can be doubled. -/
def HiHandle.MakesRoom (h : HiHandle δ) (w : World) (k : Key) : Prop :=
  h.HasRoom k ∨ (h.CanDoubleSlots k ∧ w.Serves 1)

/-! ## The sections of each engine -/

/-- The result of a section: the table keeps entries that the section may leave. -/
def Left (u : UserSettings) (w : World) (h : HiHandle δ) (E : List (Stored δ)) (st : Stage δ)
    (r : (Stage δ ⊕ Result δ) × HiHandle δ) (w' : World) : Prop :=
  ∃ E', HoldsEntries u r.2 w' E' ∧ st.Effect u (w.SomeFailed w') (st.SeesRoot h) E r.1 E'

/-- Without automatic rehashing, `do_rehash` does nothing. -/
theorem runs_rehash_left {E : List (Stored δ)} (hk : HoldsEntries u h w E) (hauto : u.rehashAuto = 0) :
    Total ((Stage.rehash k d).advance h) w (Left u w h E (.rehash k d)) := by
  have hauto' : h.rehashAuto = 0 := (congrArg UserSettings.rehashAuto hk.settings :).trans hauto
  unfold Stage.advance doRehash
  rw [if_pos hauto']
  exact ⟨E, hk, .refl _, rfl⟩

theorem ListRep.runs_advance {os : List (List (Obj δ))} (hr : ListRep h w os) (he : h.collEng = .list)
    (hu : h.tableSize ≠ 0) (hauto : h.rehashAuto = 0)
    (hresp : h.hashFunc.Respects h.keyCmp fun _ => True) {st : Stage δ}
    (hfits : st.Fits h.toUserSettings) :
    Total (st.advance h) w (Left h.toUserSettings w h (contents os).flatten st) := by
  have hok : ∀ k, h.hashFunc.Respects h.keyCmp (keysWith (contents os).flatten k) :=
    fun k a b _ _ => hresp a b trivial trivial
  have hkeep : ∀ {w'}, w ≤ w' → HoldsEntries h.toUserSettings h w' (contents os).flatten :=
    fun hw => ⟨rfl, .inl ⟨he, os, hr.mono hw, rfl⟩⟩
  have hother : h.collEng ≠ .rbtree := by
    rw [he]
    decide
  cases st with
  | start op =>
    cases op with
    | insert k d =>
      refine Runs.bind (list_lookup (.inl he) hr hu (hok k)) fun ret w' hw h' => ?_
      rcases h' with ⟨rfl, hf⟩ | ⟨hne, hf⟩
      · rw [if_pos rfl]
        exact ⟨_, hkeep hw, .refl _, (if_pos ⟨he, hf⟩).symm⟩
      · rw [if_neg hne]
        exact ⟨_, hkeep hw, .refl _, (if_neg fun hd => hd.2 hf).symm⟩
    | get k =>
      unfold Stage.advance
      simp only [he]
      refine Runs.bind (list_get (.inl he) hr hu (hok k)) fun r w' hw h' => ?_
      obtain ⟨h₁, h₂, os', hr', hp⟩ := h'
      refine ⟨_, ⟨h₂, .inl ⟨he, os', hr', rfl⟩⟩, List.Perm.flatten_congr hp, ?_⟩
      rw [if_neg hother]
      exact congrArg _ h₁
    | remove k =>
      unfold Stage.advance
      simp only [he]
      refine Runs.bind (list_remove (.inl he) hr hu (hok k)) fun r w' hw h' => ?_
      obtain ⟨h₁, h₂, os', hr', hp⟩ := h'
      refine ⟨_, ⟨h₂, .inl ⟨he, os', hr', rfl⟩⟩, ?_⟩
      rw [Stage.Effect]
      cases hf : h.keyCmp.find (contents os).flatten k with
      | none =>
        rw [hf] at h₁ hp
        exact ⟨hp, congrArg _ h₁⟩
      | some x =>
        rw [hf] at h₁ hp
        exact ⟨hp, (congrArg _ h₁).trans (if_neg hother).symm⟩
  | seek tree root k => exact absurd (he.symm.trans hfits.1) (by decide)
  | rehash k d => exact runs_rehash_left (hkeep le_rfl) hauto
  | insert k d =>
    unfold Stage.advance
    simp only [he]
    refine Runs.bind (list_insert (.inl he) hr hu (hok k)) fun r w' hw h' => ?_
    rw [runs_pure, Left]
    simp only [Stage.Effect, he, if_true]
    obtain ⟨h₂, ⟨h₁, x, os', hx, hr', hp, -⟩ | ⟨h₁, hd, hs, h₃⟩⟩ := h'
    · exact ⟨_, ⟨h₂, .inl ⟨he, os', hr', rfl⟩⟩, .inl ⟨by rw [h₁], x, hx, hp⟩⟩
    · refine ⟨_, ?_, .inr ⟨hs, ⟨_, rfl, h₁, hd, rfl⟩, .refl _⟩⟩
      rw [h₃]
      exact hkeep hw
  | fill b k d => exact absurd (he.symm.trans hfits.1) (by decide)
  | count => exact absurd (he.symm.trans hfits) (by decide)
  | uncount q => exact absurd (he.symm.trans hfits) (by decide)

theorem ArrayRep.runs_advance {bs : List (List (Option (Stored δ)))} (hr : ArrayRep h bs)
    (he : h.collEng = .array) (hu : h.tableSize ≠ 0) (hauto : h.rehashAuto = 0)
    (hdouble : Doubled h.collEngArraySize.toNat bs)
    (hresp : h.hashFunc.Respects h.keyCmp fun _ => True) {st : Stage δ}
    (hfits : st.Fits h.toUserSettings) (hroom : ∀ b k d, st = .fill b k d → h.MakesRoom w k) :
    Total (st.advance h) w (Left h.toUserSettings w h (arrayContents bs).flatten st) := by
  have hok : ∀ k, h.hashFunc.Respects h.keyCmp (keysWith (arrayContents bs).flatten k) :=
    fun k a b _ _ => hresp a b trivial trivial
  have hkeep : ∀ {w'}, HoldsEntries h.toUserSettings h w' (arrayContents bs).flatten :=
    fun {_} => ⟨rfl, .inr (.inl ⟨he, bs, hr, hdouble, rfl⟩)⟩
  -- What the source writes changes one bucket.
  have hchange : ∀ {h' w' b l m}, bs[b]? = some l →
      (m.length = l.length ∨ (none ∉ l ∧ m.length = 2 * l.length)) →
      h'.toUserSettings = h.toUserSettings → ArrayRep h' (bs.set b m) →
      HoldsEntries h.toUserSettings h' w' (arrayContents (bs.set b m)).flatten :=
    fun hb hm hset hr' => ⟨hset, .inr (.inl ⟨he, _, hr', hdouble.grow (.set hb hm), rfl⟩)⟩
  have hlist : h.collEng ≠ .list := by
    rw [he]
    decide
  have htree : h.collEng ≠ .rbtree := by
    rw [he]
    decide
  cases st with
  | start op =>
    obtain ⟨l, hb⟩ := hr.exists_bucket hu op.key
    have hfind := hr.find_contents (hok op.key) hb
    cases op with
    | insert k d =>
      unfold Stage.advance hiLookup
      simp only [he, pure_bind]
      rw [if_neg (by decide : ¬ failure = success)]
      exact ⟨_, hkeep, .refl _, (if_neg fun hd => hlist hd.1).symm⟩
    | get k =>
      unfold Stage.advance hiGet
      simp only [he, bind_assoc, pure_bind]
      refine Runs.bind (hr.runs_lhiGetArray he hu hb) fun r w' hw h' => ?_
      refine ⟨_, hkeep, .refl _, ?_⟩
      rw [if_neg htree]
      exact congrArg _ (h'.1.trans (congrArg _ hfind.symm))
    | remove k =>
      dsimp only [MapOp.key] at hb hfind
      unfold Stage.advance hiRemove
      simp only [he, runs_bind]
      refine hr.runs_lhiRemoveArray he hu hb (fun hn w' hw _ => ?_) ?_
      · refine ⟨_, hkeep, ?_⟩
        rw [Stage.Effect, hfind, hn]
        exact ⟨.refl _, rfl⟩
      · rintro p x q h' w' rfl hx hr' hu' hw -
        refine ⟨_, hchange hb (.inl (by simp)) hu' hr', ?_⟩
        rw [Stage.Effect, hfind, hx]
        exact ⟨perm_of_clear hb, (if_neg htree).symm⟩
  | seek tree root k => exact absurd (he.symm.trans hfits.1) (by decide)
  | rehash k d => exact runs_rehash_left hkeep hauto
  | insert k d =>
    obtain ⟨l, hb⟩ := hr.exists_bucket hu k
    have hfind := hr.find_contents (hok k) hb
    unfold Stage.advance
    simp only [he]
    refine runs_bind.mpr ((runs_bucketOf hu k).mpr ?_)
    refine Runs.bind (hr.runs_lhiGetArray he hu hb) fun r w' hw h' => ?_
    obtain ⟨rfl, -⟩ := h'
    rw [← hfind]
    cases hf : h.keyCmp.find (arrayContents bs).flatten k with
    | some x =>
      refine runs_ite.mpr ⟨fun _ => ⟨_, hkeep, ?_⟩, fun hne => (hne rfl).elim⟩
      rw [Stage.Effect, if_neg hlist, if_pos (by rw [hf]; simp)]
      exact ⟨.refl _, rfl⟩
    | none =>
      refine runs_ite.mpr ⟨fun hs => ?_, fun _ => ⟨_, hkeep, ?_⟩⟩
      · exact absurd (show hiErrNokey = success from hs) (by decide)
      · rw [Stage.Effect, if_neg hlist, if_neg (not_not_intro hf), if_pos he]
        exact ⟨.refl _, rfl⟩
  | fill b k d =>
    obtain ⟨-, rfl⟩ := hfits
    obtain ⟨l, hb⟩ := hr.exists_bucket hu k
    have hmakes := hroom _ k d rfl
    rw [HiHandle.MakesRoom, hr.hasRoom_iff hb, hr.canDoubleSlots_iff hb] at hmakes
    refine runs_bind.mpr (hr.runs_lhiInsertArraySlot hb ?_ ?_ ?_ ?_)
    · intro hfull w' hw hs
      rcases hmakes with hfree | ⟨-, hserves⟩
      · exact (hfull hfree).elim
      · exact (hs.not_block (hserves 0 Nat.zero_lt_one)).elim
    · intro hfull hlen h' w' hw hs hu'
      rcases hmakes with hfree | ⟨hlt, -⟩
      · exact (hfull hfree).elim
      · omega
    · intro n h' w' hw hn hs hu' hsame hr'
      refine ⟨_, hchange hb (length_grown l) hu' hr', .inr ⟨hs.someFailed, ?_, ?_⟩⟩
      · exact ⟨_, rfl, (by decide : hiErrSystem ≠ success), (by decide : hiErrSystem ≠ hiErrDupkey),
          rfl⟩
      · rw [arrayContents_set, reduceOption_grown, set_self (arrayContents_getElem hb)]
    · intro x p q n h' w' hw hn hs hx hpq hu' hr' _
      have hlen : (p ++ some x :: q).length = (grown l).length := by simp [hpq]
      refine ⟨_, hchange hb ?_ hu' hr', .inl ⟨rfl, x, hx, perm_of_fill hb hpq⟩⟩
      rw [hlen]
      exact length_grown l
  | count => exact absurd (he.symm.trans hfits) (by decide)
  | uncount q => exact absurd (he.symm.trans hfits) (by decide)

/-- The section of `hi_insert` in a tree, as a part of the call. -/
theorem runs_insertNode {n : UInt32} {Q : Int × HiHandle δ → World → Prop} (he : h.collEng = .rbtree)
    (hall : Total (engineInsert (h.recount n) k.bytes k.keylen d) w Q) :
    Total (lhiInsertRbtreeNode h k.bytes k.keylen d) w fun r w' =>
      if r.1 = success then ∃ w₂, w₂.requests = w'.requests ∧ Q (success, r.2.recount (n + 1)) w₂
      else Q (r.1, r.2.recount n) w' := by
  have he' : (h.recount n).collEng = .rbtree := he
  unfold engineInsert at hall
  simp only [he'] at hall
  rw [lhiInsertRbtree, recount_insertNode] at hall
  refine (runs_map.mp (runs_bind.mp hall)).imp fun r w' h' => ?_
  by_cases hs : r.1 = success
  · rw [if_pos hs]
    have hQ := (runs_ite.mp h').1 hs
    simp only [HiHandle.countObject, runs_bind, runs_mutexLock, runs_mutexUnlock, runs_pure] at hQ
    rw [hs] at hQ
    exact ⟨(w'.log _).log _, rfl, hQ⟩
  · rw [if_neg hs]
    exact (runs_ite.mp h').2 hs

theorem runs_removeNode {n : UInt32} {Q : Result δ × HiHandle δ → World → Prop}
    (he : h.collEng = .rbtree) (hall : Total (hiRemove (h.recount n) k.bytes k.keylen) w Q) :
    Total (lhiRemoveRbtreeNode h k.bytes k.keylen) w fun r w' =>
      if r.1.status = success then
        ∃ w₂, w₂.requests = w'.requests ∧ Q (r.1, r.2.recount (n - 1)) w₂
      else Q (r.1, r.2.recount n) w' := by
  have he' : (h.recount n).collEng = .rbtree := he
  unfold hiRemove at hall
  simp only [he'] at hall
  rw [lhiRemoveRbtree, recount_removeNode] at hall
  refine (runs_map.mp (runs_bind.mp hall)).imp fun r w' h' => ?_
  by_cases hs : r.1.status = success
  · rw [if_pos hs]
    have hQ := (runs_ite.mp h').1 hs
    simp only [HiHandle.uncountObject, runs_bind, runs_mutexLock, runs_mutexUnlock, runs_pure] at hQ
    exact ⟨(w'.log _).log _, rfl, hQ⟩
  · rw [if_neg hs]
    exact (runs_ite.mp h').2 hs

theorem RbRep.runs_advance {ts : List (ColorTree (RbObj δ))} {n : Nat}
    (hn : n = (treeContents ts).flatten.length)
    (hr : RbRep (h.recount (UInt32.ofNat n)) w ts) (hs : ∀ t ∈ ts, Sorted h.keyCmp t)
    (he : h.collEng = .rbtree) (hu : h.tableSize ≠ 0) (hauto : h.rehashAuto = 0)
    (hord : OrderedKeys h.hashFunc h.keyCmp fun _ => True) {st : Stage δ}
    (hfits : st.Fits h.toUserSettings) (hsees : st.SeesRoot h) :
    Total (st.advance h) w (Left h.toUserSettings w h (treeContents ts).flatten st) := by
  subst hn
  have hok : ∀ k, OrderedKeys h.hashFunc h.keyCmp (keysWith (treeContents ts).flatten k) :=
    fun k => hord.mono fun _ _ => trivial
  have hkeep : ∀ {h' w'}, h'.toUserSettings = h.toUserSettings → w ≤ w' →
      h'.recount (UInt32.ofNat (treeContents ts).flatten.length) =
        h.recount (UInt32.ofNat (treeContents ts).flatten.length) →
      HoldsEntries h.toUserSettings h' w' (treeContents ts).flatten := fun hset hw hsame =>
    ⟨hset, .inr (.inr ⟨he, ts, hsame ▸ hr.mono hw, hs, rfl⟩)⟩
  have he' : (h.recount (UInt32.ofNat (treeContents ts).flatten.length)).collEng = .rbtree := he
  have hlist : h.collEng ≠ .list := by
    rw [he]
    decide
  have harray : h.collEng ≠ .array := by
    rw [he]
    decide
  cases st with
  | start op =>
    cases op with
    | insert k d =>
      unfold Stage.advance hiLookup
      simp only [he, pure_bind]
      rw [if_neg (by decide : ¬ failure = success)]
      exact ⟨_, hkeep rfl le_rfl rfl, .refl _, (if_neg fun hd => hlist hd.1).symm⟩
    | get k =>
      obtain ⟨t, hb⟩ := hr.exists_tree hu k
      obtain ⟨lock, hroot⟩ := hr.roots _ t hb
      unfold Stage.advance
      simp only [he]
      refine runs_bind.mpr ((runs_bucketOf hu k).mpr ?_)
      refine runs_bind.mpr (Block.runs_load hr.treesAddr hroot ?_)
      exact ⟨_, hkeep rfl le_rfl rfl, .refl _, (if_pos he).mpr ⟨_, rfl⟩⟩
    | remove k =>
      unfold Stage.advance
      simp only [he]
      refine Runs.bind (runs_removeNode he (rbtree_remove he' hr hs hu (hok k))) ?_
      rintro ⟨r, h'⟩ w' hw h₁
      dsimp only at h₁ ⊢
      have hcmp : (h.recount (UInt32.ofNat (treeContents ts).flatten.length)).keyCmp = h.keyCmp := rfl
      rw [hcmp] at h₁
      cases hf : h.keyCmp.find (treeContents ts).flatten k with
      | none =>
        simp only [hf] at h₁
        have hne : ¬ r.status = success := fun hs => by
          rw [if_pos hs] at h₁
          obtain ⟨w₂, -, rfl, -⟩ := h₁
          exact absurd (show hiErrNokey = success from hs) (by decide)
        rw [if_neg hne] at h₁ ⊢
        obtain ⟨rfl, hset, ts', hr', hs', hp⟩ := h₁
        refine ⟨_, ⟨hset, .inr (.inr ⟨he, ts', ?_, hs', rfl⟩)⟩, ?_⟩
        · rwa [hp.length_eq]
        · rw [Stage.Effect, hf]
          exact ⟨hp, rfl⟩
      | some x =>
        simp only [hf] at h₁
        have hs : r.status = success := by
          by_contra hne
          rw [if_neg hne] at h₁
          exact hne (congrArg Result.status h₁.1)
        rw [if_pos hs] at h₁ ⊢
        obtain ⟨w₂, hreq, rfl, hset, ts', hr', hs', hp⟩ := h₁
        refine ⟨_, ⟨hset, .inr (.inr ⟨he, ts', ?_, hs', rfl⟩)⟩, ?_⟩
        · rw [hp.length_eq, List.length_cons, ofNat_pred] at hr'
          exact hr'.of_requests hreq.le
        · rw [Stage.Effect, hf]
          exact ⟨hp, (if_pos he).symm⟩
  | seek tree root k =>
    obtain ⟨-, rfl⟩ := hfits
    obtain ⟨t, hb⟩ := hr.exists_tree hu k
    obtain ⟨lock, hroot⟩ := hr.roots _ t hb
    have hcell : h.trees.cells[h.toUserSettings.bucket k]? = some ⟨(addrs t).root, lock⟩ := hroot
    rw [Stage.SeesRoot, hcell] at hsees
    obtain rfl : (addrs t).root = root := Option.some.inj hsees
    have hnode := rbtree_getNode hr hs (hok k) hb
    rw [recount_getNode] at hnode
    refine Runs.bind hnode fun r w' hw h' => ?_
    exact ⟨_, hkeep rfl hw rfl, .refl _, r, rfl, fun _ => h'.1⟩
  | rehash k d => exact runs_rehash_left (hkeep rfl le_rfl rfl) hauto
  | insert k d =>
    unfold Stage.advance
    simp only [he]
    by_cases hf : h.keyCmp.find (treeContents ts).flatten k = none
    · refine Runs.bind (runs_insertNode he (rbtree_insert he' hr hs hu (hok k) hf)) ?_
      rintro ⟨ret, h'⟩ w' hw h₁
      dsimp only at h₁ ⊢
      by_cases hret : ret = success
      · rw [if_pos hret] at h₁ ⊢
        obtain ⟨w₂, hreq, hset, ⟨-, x, ts', hx, hr', hs', hp⟩ | ⟨hsys, -⟩⟩ := h₁
        · refine ⟨_, ⟨hset, .inr (.inr ⟨he, ts', ?_, hs', rfl⟩)⟩, ?_⟩
          · rw [hp.length_eq, List.length_cons, ofNat_succ]
            exact hr'.of_requests hreq.le
          · rw [Stage.Effect, if_neg hlist, if_neg (not_not_intro hf), if_neg harray]
            exact .inl ⟨rfl, x, hx, hp⟩
        · exact absurd (show success = hiErrSystem from hsys) (by decide)
      · rw [if_neg hret] at h₁ ⊢
        obtain ⟨hset, ⟨hsuc, -⟩ | ⟨rfl, hfail, hsame⟩⟩ := h₁
        · exact (hret hsuc).elim
        · refine ⟨_, hkeep hset hw hsame, ?_⟩
          rw [Stage.Effect, if_neg hlist, if_neg (not_not_intro hf), if_neg harray]
          exact .inr ⟨hfail, ⟨_, rfl, hret, (by decide : hiErrSystem ≠ hiErrDupkey), rfl⟩, .refl _⟩
    · refine Runs.bind (runs_insertNode he (rbtree_insertDup he' hr hs hu (hok k) hf)) ?_
      rintro ⟨ret, h'⟩ w' hw h₁
      dsimp only at h₁ ⊢
      by_cases hret : ret = success
      · rw [if_pos hret] at h₁
        obtain ⟨w₂, -, h₂⟩ := h₁
        exact absurd (show success = hiErrDupkey from congrArg Prod.fst h₂) (by decide)
      · rw [if_neg hret] at h₁ ⊢
        have hsame := congrArg Prod.snd h₁
        obtain rfl : ret = hiErrDupkey := congrArg Prod.fst h₁
        refine ⟨_, hkeep (congrArg HiHandle.toUserSettings hsame :) hw hsame, ?_⟩
        rw [Stage.Effect, if_neg hlist, if_pos hf]
        exact ⟨.refl _, rfl⟩
  | fill b k d => exact absurd (he.symm.trans hfits.1) (by decide)
  | count => exact ⟨_, hkeep rfl ((w.le_log _).trans (World.le_log _ _)) rfl, .refl _, rfl⟩
  | uncount q => exact ⟨_, hkeep rfl ((w.le_log _).trans (World.le_log _ _)) rfl, .refl _, rfl⟩

/-! ## All engines -/

variable {E E' : List (Stored δ)} {st : Stage δ} {r : Stage δ ⊕ Result δ}

/-- The callbacks of the settings meet their contracts. -/
abbrev KeysOk (u : UserSettings) : Prop := KeyContract u.hashFunc u.keyCmp u.collEng

theorem HoldsEntries.mono (hk : HoldsEntries u h w E) (hw : w ≤ w') : HoldsEntries u h w' E := by
  refine ⟨hk.settings, ?_⟩
  rcases hk.stores with ⟨he, os, hr, hE⟩ | harray | ⟨he, ts, hr, hs⟩
  · exact .inl ⟨he, os, hr.mono hw, hE⟩
  · exact .inr (.inl harray)
  · exact .inr (.inr ⟨he, ts, hr.mono hw, hs⟩)

/-- A search writes nothing, wherever it starts. -/
theorem HoldsEntries.partial_seek {tree : Nat} {root : Option Ptr} (hk : HoldsEntries u h w E)
    (hsees : ¬ (Stage.seek tree root k : Stage δ).SeesRoot h) :
    Partial ((Stage.seek tree root k).advance h) w (Left u w h E (.seek tree root k)) := by
  have hall : Partial (lhiGetRbtreeNode h tree root k.bytes) w fun _ _ => True := partial_trivial
  refine Runs.bind hall fun q w' hw _ => ?_
  exact ⟨E, hk.mono hw, .refl _, q, rfl, fun hs => (hsees hs).elim⟩

/-- Every section that still sees the root it has read returns, and does to the entries what its stage
says. A section that does not may fault. -/
theorem HoldsEntries.runs_advance (hk : HoldsEntries u h w E) (hok : KeysOk u) (hu : u.tableSize ≠ 0)
    (hauto : u.rehashAuto = 0) (hfits : st.Fits u)
    (hroom : ∀ b k d, st = .fill b k d → h.MakesRoom w k) :
    Runs (fun _ => ¬ st.SeesRoot h) (st.advance h) w (Left u w h E st) := by
  by_cases hsees : st.SeesRoot h
  · refine Runs.of_total ?_
    have hresp : u.hashFunc.Respects u.keyCmp fun _ => True := fun k k' _ _ => hok.hash k k'
    obtain ⟨rfl, ⟨he, os, hr, rfl⟩ | ⟨he, bs, hr, hd, rfl⟩ | ⟨he, ts, hr, hs, rfl⟩⟩ := hk
    · exact hr.runs_advance he hu hauto hresp hfits
    · exact hr.runs_advance he hu hauto hd hresp hfits hroom
    · exact RbRep.runs_advance rfl hr hs he hu hauto ⟨hresp, hok.order he⟩ hfits hsees
  · cases st with
    | seek tree root k => exact (hk.partial_seek hsees).mono_fault fun _ _ => hsees
    | _ => exact (hsees trivial).elim

/-- `HoldsEntries.runs_advance` for a section that sees the root. -/
theorem HoldsEntries.total_advance (hk : HoldsEntries u h w E) (hok : KeysOk u)
    (hu : u.tableSize ≠ 0) (hauto : u.rehashAuto = 0) (hfits : st.Fits u)
    (hroom : ∀ b k d, st = .fill b k d → h.MakesRoom w k) (hsees : st.SeesRoot h) :
    Total (st.advance h) w (Left u w h E st) :=
  (hk.runs_advance hok hu hauto hfits hroom).mono_fault fun _ hno => hno hsees

/-- A call of `hi_get` that nobody interrupts finds what is stored. -/
theorem HoldsEntries.runs_hiGet (hk : HoldsEntries u h w E) (hok : KeysOk u) (hu : u.tableSize ≠ 0) :
    Total (hiGet h k.bytes k.keylen) w fun r _ => r.1 = resultOf (u.keyCmp.find E k) := by
  have hresp : u.hashFunc.Respects u.keyCmp (keysWith E k) := fun k k' _ _ => hok.hash k k'
  obtain ⟨rfl, ⟨he, os, hr, rfl⟩ | ⟨he, bs, hr, hd, rfl⟩ | ⟨he, ts, hr, hs, rfl⟩⟩ := hk
  · exact (list_get (.inl he) hr hu hresp).imp fun _ _ h' => h'.1
  · obtain ⟨l, hb⟩ := hr.exists_bucket hu k
    unfold hiGet
    simp only [he]
    refine Runs.bind (hr.runs_lhiGetArray he hu hb) fun r w' hw h' => ?_
    exact h'.1.trans (congrArg _ (hr.find_contents hresp hb).symm)
  · have hord : OrderedKeys h.hashFunc h.keyCmp (keysWith (treeContents ts).flatten k) :=
      ⟨hresp, (hok.order he).mono fun _ _ => trivial⟩
    have he' : (h.recount (UInt32.ofNat (treeContents ts).flatten.length)).collEng = .rbtree := he
    have hget := rbtree_get he' hr hs hu hord
    unfold hiGet at hget ⊢
    simp only [he', recount_get, runs_bind, runs_pure] at hget
    simp only [he, runs_bind, runs_pure]
    exact hget.imp fun r w' h' => congrArg Prod.fst h'.1

theorem HoldsEntries.engine (hk : HoldsEntries u h w E) : sharedEngine u.collEng := by
  rcases hk.stores with ⟨he, -⟩ | ⟨he, -⟩ | ⟨he, -⟩
  · exact .inl he
  · exact .inr (.inl he)
  · exact .inr (.inr he)

/-- The counters of a list and of an array table are never late. -/
theorem HoldsEntries.count (hk : HoldsEntries u h w E) (he : u.collEng ≠ .rbtree) :
    h.noObjects = UInt32.ofNat E.length := by
  obtain ⟨rfl, ⟨-, os, hr, rfl⟩ | ⟨-, bs, hr, -, rfl⟩ | ⟨he', -⟩⟩ := hk
  · rw [hr.count, contents, ← List.map_flatten, List.length_map]
  · exact hr.count
  · exact (he he').elim

theorem Stage.Effect.fits {mayFail sees : Prop} (h : st.Effect u mayFail sees E r E')
    (he : sharedEngine u.collEng) : ∀ p, r = .inl p → p.Fits u := by
  rintro p rfl
  cases st with
  | start op =>
    cases op with
    | insert k d =>
      have hr := h.2
      split at hr
      · cases hr
      · cases hr
        trivial
    | get k =>
      have hr := h.2
      split at hr
      · rename_i htree
        obtain ⟨root, hr⟩ := hr
        cases hr
        exact ⟨htree, rfl⟩
      · cases hr
    | remove k =>
      rw [Stage.Effect] at h
      split at h
      · cases h.2
      · have hr := h.2
        split at hr
        · rename_i htree
          cases hr
          exact htree
        · cases hr
  | seek tree root k =>
    obtain ⟨-, q, hr, -⟩ := h
    cases hr
  | rehash k d =>
    cases h.2
    trivial
  | insert k d =>
    rw [Stage.Effect] at h
    split at h
    · rcases h with ⟨hr, -⟩ | ⟨-, ⟨q, hr, -⟩, -⟩ <;> cases hr
    · rename_i hlist
      split at h
      · cases h.2
      · split at h
        · rename_i harray
          cases h.2
          exact ⟨harray, rfl⟩
        · rename_i harray
          rcases h with ⟨hr, -⟩ | ⟨-, ⟨q, hr, -⟩, -⟩
          · cases hr
            exact (he.resolve_left hlist).resolve_left harray
          · cases hr
  | fill b k d => rcases h with ⟨hr, -⟩ | ⟨-, ⟨q, hr, -⟩, -⟩ <;> cases hr
  | count => cases h.2
  | uncount q => cases h.2

end Hashish
