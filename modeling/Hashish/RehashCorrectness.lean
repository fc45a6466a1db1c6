import Hashish.ListMap
import Hashish.ManyKeys
import Hashish.RbtreeMap
import Hashish.Stores

/-!
# Rehashing is correct

* `rehash_keeps_table`: `hi_rehash` moves every entry of a table whose buckets hold fewer
  than `2 ^ 32` entries each, or leaves the table as it is.
* `rehash_loses_entries`: a bucket of `2 ^ 32` entries counts as empty, and is lost.
-/

namespace Hashish

open Hashish.Lib

variable {δ : Type} {w : World} {h : HiHandle δ} {bs : List (List (Stored δ))}

/-! ## The order of the keys -/

/-- When an engine can compare all keys, its calls keep its representation. -/
theorem Engine.upkeep {G : Engine δ} {f : HashFunc} {cmp : KeyCmp} (had : G.Admits f cmp fun _ => True)
    (heng : ∀ {c}, G.covers c → c ≠ .unset ∧ c ≠ .max)
    (hins : ∀ {h w bs k d}, G.covers h.collEng → G.Rep h w bs → h.tableSize ≠ 0 →
      G.Admits h.hashFunc h.keyCmp (keysWith bs.flatten k) →
      Partial (engineInsert h k.bytes k.keylen d) w fun r w' =>
        r.2.toUserSettings = h.toUserSettings ∧ ∃ bs', G.Rep r.2 w' bs') :
    Upkeep (fun u => G.covers u.collEng ∧ u.hashFunc = f ∧ u.keyCmp = cmp)
      (fun (h : HiHandle δ) w => ∃ bs, G.Rep h w bs) fun _ _ _ _ => True where
  engines he := heng he.1
  resize _ _ he := he
  mono := by
    rintro h w w' ⟨bs, hr⟩ hw
    exact ⟨bs, G.mono hr hw⟩
  relabel := by
    rintro h w a p ⟨bs, hr⟩
    exact ⟨bs, G.relabel a p hr⟩
  get := by
    rintro h w k ⟨hc, rfl, rfl⟩ hu ⟨bs, hr⟩
    refine Runs.of_total ((G.get hc hr hu (G.admits_mono had fun _ _ => trivial)).imp ?_)
    rintro r w' ⟨-, hset, bs', hr', -⟩
    exact ⟨hset, bs', hr'⟩
  remove := by
    rintro h w k ⟨hc, rfl, rfl⟩ hu ⟨bs, hr⟩
    refine Runs.of_total ((G.remove hc hr hu (G.admits_mono had fun _ _ => trivial)).imp ?_)
    rintro r w' ⟨-, hset, bs', hr', -⟩
    exact ⟨hset, bs', hr'⟩
  insert := by
    rintro h w k d ⟨hc, rfl, rfl⟩ hu ⟨bs, hr⟩
    refine (hins hc hr hu (G.admits_mono had fun _ _ => trivial)).imp fun r w' h' => ?_
    exact ⟨h'.1, fun _ => h'.2⟩
  create he := by
    refine Runs.of_total ((G.create he.1).imp ?_)
    rintro r w' (⟨rfl, -⟩ | ⟨h, rfl, hu, hr⟩)
    · exact .inl ⟨_, rfl⟩
    · exact .inr ⟨h, rfl, hu, _, hr⟩
  snapshots := by
    rintro h w ⟨hc, -⟩ ⟨bs, hr⟩
    refine ⟨_, _, _, _, bs, G.iterable hc hr (fun _ _ _ hs => hs) fun _ _ _ _ => trivial, ?_⟩
    intro l s hs
    rw [hs.length]
    omega

/-- The engine whose tables a session with these settings reaches. -/
theorem Reached.rep {s : HiInitSet} {u : UserSettings} (hs : lhiSetSanityCheck s = .ok u)
    (he : plainEngine u.collEng) (hresp : u.hashFunc.Respects u.keyCmp fun _ => True)
    (hord : u.collEng = .rbtree → OrderOn u.keyCmp fun _ => True) (hr : Reached s h w) :
    Alike u h.toUserSettings ∧ h.tableSize ≠ 0 ∧
      ∃ (G : Engine δ) (bs : _), G.covers h.collEng ∧ Stores h w bs ∧ G.Rep h w bs ∧
        G.Admits h.hashFunc h.keyCmp fun _ => True := by
  obtain ⟨hset, hu, bs, hst⟩ := hr.stores hs he
  have heng : h.collEng = u.collEng := (congrArg UserSettings.collEng hset :)
  have hhash : h.hashFunc = u.hashFunc := (congrArg UserSettings.hashFunc hset :)
  have hcmp : h.keyCmp = u.keyCmp := (congrArg UserSettings.keyCmp hset :)
  refine ⟨hset, hu, ?_⟩
  rw [hhash, hcmp]
  rcases he with he | he
  · refine ⟨listEngine δ, bs, heng ▸ he, hst, ?_, hresp⟩
    rcases hst with ⟨-, hrep⟩ | ⟨ht, -⟩
    · exact hrep
    · rw [heng] at ht
      rcases he with he | he <;> cases ht.symm.trans he
  · have had : OrderedKeys u.hashFunc u.keyCmp fun _ => True := ⟨hresp, hord he⟩
    have K := Engine.upkeep (G := rbtreeEngine δ) had
      (fun hc => by rw [show _ = CollEng.rbtree from hc]; decide) ?_
    · obtain ⟨-, -, bs', ts, hrb, hsorted, rfl⟩ := hr.upkeep K hs ⟨he, rfl, rfl⟩
      have hrb' : h.collEng = .rbtree := heng.trans he
      exact ⟨rbtreeEngine δ, _, hrb', .inr ⟨hrb', ts, hrb, rfl⟩, ⟨ts, hrb, hsorted, rfl⟩, had⟩
    · intro h w bs k d hc hrep hu had'
      by_cases hf : h.keyCmp.find bs.flatten k = none
      · refine Runs.of_total (((rbtreeEngine δ).insert hc hrep hu had' hf).and_grows.imp ?_)
        rintro r w' ⟨hw, hset, ⟨-, x, bs', -, hrep', -⟩ | ⟨-, -, -, hsame⟩⟩
        · exact ⟨hset, bs', hrep'⟩
        · exact ⟨hset, bs, hsame ▸ (rbtreeEngine δ).mono hrep hw⟩
      · refine Runs.of_total (((rbtreeEngine δ).insertDup trivial hc hrep hu had' hf).and_grows.imp ?_)
        rintro r w' ⟨hw, rfl⟩
        exact ⟨rfl, bs, (rbtreeEngine δ).mono hrep hw⟩

/-! ## Rehashing -/

/-- `hi_get` gives the same answers for both tables. -/
def SameAnswers (h : HiHandle δ) (w : World) (h' : HiHandle δ) (w' : World) : Prop :=
  ∀ k : Key, ∃ a, (Total (hiGet h k.bytes k.keylen) w fun r _ => r.1 = a) ∧
    Total (hiGet h' k.bytes k.keylen) w' fun r _ => r.1 = a

theorem resultOf_eq {x y : Option (Stored δ)} (he : x.map Stored.pair = y.map Stored.pair) :
    resultOf x = resultOf y := by
  cases x with
  | none =>
    cases y with
    | none => rfl
    | some y => cases he
  | some x =>
    cases y with
    | none => cases he
    | some y =>
      have hd : x.data = y.data := congrArg Prod.snd (Option.some_inj.mp he)
      rw [resultOf, resultOf, hd]

/-- Settings that list and tree engines accept. -/
structure PlainSettings (s : HiInitSet) (f : HashFunc) (cmp : KeyCmp) : Prop where
  engine : plainEngine s.collEng
  tableSize : s.tableSize ≠ 0
  hashFunc : s.hashFunc = some f
  keyCmp : s.keyCmp = some cmp

theorem PlainSettings.check {s : HiInitSet} {f : HashFunc} {cmp : KeyCmp} (hs : PlainSettings s f cmp) :
    ∃ u, lhiSetSanityCheck s = .ok u ∧ plainEngine u.collEng ∧ u.collEng = s.collEng ∧
      u.hashFunc = f ∧ u.keyCmp = cmp := by
  refine ⟨_, lhiSetSanityCheck_plain hs.tableSize hs.hashFunc hs.keyCmp ?_, hs.engine, rfl, rfl, rfl⟩
  rcases hs.engine with (he | he) | he
  · exact .inl he
  · exact .inr (.inl he)
  · exact .inr (.inr he)

/-- Where every bucket holds fewer than `2 ^ 32` entries, a successful `hi_rehash` keeps all
answers, `no_objects` and the settings, and any other leaves the table as it was. -/
theorem rehash_keeps_table {s : HiInitSet} {f : HashFunc} {cmp : KeyCmp} (hs : PlainSettings s f cmp)
    (hresp : ∀ k k', cmp.same k k' → f.hash k = f.hash k')
    (hord : s.collEng = .rbtree → OrderOn cmp fun _ => True) (hr : Reached s h w) {n : UInt32}
    (hn : n ≠ 0) :
    ∃ bs, Stores h w bs ∧ (Fits bs → Total (hiRehash h n) w fun r w' =>
      (r.1 = success ∧ r.2.toUserSettings = { h.toUserSettings with tableSize := n } ∧
        r.2.noObjects = h.noObjects ∧ SameAnswers h w r.2 w') ∨
      (r.1 ≠ success ∧ r.2 = h)) := by
  obtain ⟨u, hcheck, he, heng, rfl, rfl⟩ := hs.check
  obtain ⟨-, hu, G, bs, hc, hst, hrep, had⟩ := hr.rep hcheck he (fun k k' _ _ => hresp k k')
    fun he => hord (heng ▸ he)
  refine ⟨bs, hst, fun hfit => ?_⟩
  have hadmits : ∀ S, G.Admits h.hashFunc h.keyCmp S := fun S =>
    G.admits_mono had fun _ _ => trivial
  refine (G.runs_hiRehash_fits hc hrep hu (.inl hn) (fun _ _ => hadmits _) hfit).imp ?_
  rintro ⟨ret, h'⟩ w' (⟨hret, -, hset, bs', hrep', hperm, hfind⟩ | hsame)
  · refine .inl ⟨hret, hset, ?_, fun k => ?_⟩
    · rw [G.count hrep, show h'.noObjects = _ from G.count hrep']
      have hlen := hperm.length_eq
      rw [List.length_map, List.length_map] at hlen
      rw [hlen]
    · have hcmp : h'.keyCmp = h.keyCmp := (congrArg UserSettings.keyCmp hset :)
      have hhash : h'.hashFunc = h.hashFunc := (congrArg UserSettings.hashFunc hset :)
      have hc' : G.covers h'.collEng := by
        rw [show h'.collEng = h.collEng from (congrArg UserSettings.collEng hset :)]
        exact hc
      have hu' : h'.tableSize ≠ 0 := by
        rw [show h'.tableSize = n from (congrArg UserSettings.tableSize hset :)]
        exact hn
      have had' : G.Admits h'.hashFunc h'.keyCmp (keysWith bs'.flatten k) := by
        rw [hcmp, hhash]
        exact hadmits _
      refine ⟨_, (G.get hc hrep hu (hadmits _)).imp fun _ _ h' => h'.1,
        (G.get hc' hrep' hu' had').imp fun r _ h' => h'.1.trans ?_⟩
      rw [hcmp]
      exact resultOf_eq (hfind k (hadmits _))
  · exact .inr hsame

/-- A table of one bucket. -/
def oneList : HiInitSet :=
  { hiSetZero with
    tableSize := 1, collEng := .list, keyCmp := some hiCmpUint16T,
    hashFunc := some ⟨0, lhiHashDumb1⟩ }

/-- Three entries in one bucket are spread over two. -/
theorem rehash_keeps_table_three :
    ∃ (h : HiHandle String) (w : World), Reached oneList h w ∧ h.noObjects = 3 ∧
      Total (hiRehash h 2) w fun r w' =>
        (r.1 = success ∧ r.2.noObjects = 3 ∧ SameAnswers h w r.2 w') ∨
        (r.1 ≠ success ∧ r.2 = h) := by
  obtain ⟨h, w₁, rs, h', w₂, hcreate, hcalls, hcount, hreq⟩ :
      ∃ (h : HiHandle String) (w₁ : World) (rs : _) (h' : HiHandle String) (w₂ : World),
        (hiCreate oneList).run (World.start fun _ _ => 0) = .ok (.ok h, w₁) ∧
        (Prog.calls TableOp.call [.map (.insert ⟨[1, 0], by decide⟩ "one"),
            .map (.insert ⟨[2, 0], by decide⟩ "two"),
            .map (.insert ⟨[3, 0], by decide⟩ "three")] h).run w₁ =
          .ok ((rs, h'), w₂) ∧ h'.noObjects = 3 ∧ w₂.requests < 2 ^ 32 := by
    refine ⟨_, _, _, _, _, rfl, rfl, rfl, ?_⟩
    decide
  have hreach : Reached oneList h' w₂ := ⟨World.start fun _ _ => 0, h, w₁, _, rs, hcreate,
    Meets.of_forall fun _ _ _ _ => trivial, hcalls⟩
  obtain ⟨bs, hst, hrehash⟩ := rehash_keeps_table (f := ⟨0, lhiHashDumb1⟩) (n := 2)
    ⟨.inl (.inl rfl), by decide, rfl, rfl⟩ (fun _ _ _ => rfl)
    (fun he => absurd (show CollEng.list = .rbtree from he) (by decide)) hreach (by decide)
  refine ⟨h', w₂, hreach, hcount, ?_⟩
  refine (hrehash fun l hl => Nat.lt_of_le_of_lt (hst.length_le hl) hreq).imp fun r w' h₁ => ?_
  rcases h₁ with ⟨hret, -, hobj, hsame⟩ | hfail
  · exact .inl ⟨hret, hobj.trans hcount, hsame⟩
  · exact .inr hfail

/-! ## A bucket that counts as empty -/

/-- A session that inserts the numbers below `n` into a table of `COLL_ENG_LIST`. -/
theorem runs_numbers {s : HiInitSet} {f : HashFunc} (he : s.collEng = .list) (hsize : s.tableSize ≠ 0)
    (hauto : s.rehashAuto = 0) (hhash : s.hashFunc = some f) (hcmp : s.keyCmp = some cmpBytes)
    (hw : w.AllocsSucceed) {n : Nat} (hn : n ≤ 2 ^ 63) {ops : List (MapOp Unit)}
    (hops : ops = insertAll (List.range n)) :
    Total (session s ops) w fun r w' => ∃ h bs,
      r = .ok ((mapSession cmpBytes ops).1, h) ∧ w'.AllocsSucceed ∧ h.collEng = .list ∧
      h.tableSize = s.tableSize ∧ h.hashFunc = f ∧ h.keyCmp = cmpBytes ∧ (listEngine Unit).Rep h w' bs ∧
      (bs.flatten.map Stored.pair).Perm ((List.range n).map fun i => (numberKey i, ())) := by
  have hresp : ∀ S, HashFunc.Respects f cmpBytes S := fun S k k' _ _ hs => by
    rw [same_cmpBytes.mp hs]
  have hcheck := lhiSetSanityCheck_plain hsize hhash hcmp (.inl he)
  have hrun := (listEngine Unit).runs_session hcheck (.inl he) hauto equivalence_cmpBytes
    (hresp _) hw ops
  refine (hrun.and_grows.and_returned (R := fun r _ => ∀ rs h, r = .ok (rs, h) →
    h.toUserSettings = ⟨s.tableSize, s.collEng, s.rehashAuto, s.rehashThreshold,
      s.collEngArraySize, f, s.hash2Func, cmpBytes⟩) ?_).imp ?_
  · unfold session
    refine Runs.bind (storesUpkeep.runs_hiCreate hcheck (.inl (.inl he))) fun r w₁ _ h₁ => ?_
    rcases h₁ with ⟨ret, rfl⟩ | ⟨h, rfl, hu, bs, hst⟩
    · exact fun _ _ he => by cases he
    have hu' : h.tableSize ≠ 0 := by
      rw [show h.tableSize = s.tableSize from (congrArg UserSettings.tableSize hu :)]
      exact hsize
    have hauto' : h.rehashAuto = 0 := (congrArg UserSettings.rehashAuto hu :).trans hauto
    refine runs_bind.mpr ((hst.runs_mapOps hu' hauto' ops).imp ?_)
    rintro ⟨rs, h'⟩ w₂ ⟨hset, -⟩ _ _ he'
    cases he'
    exact hset.trans hu
  · rintro r w' ⟨⟨hw', h, bs, rfl, hrep⟩, hset⟩
    have hu := hset _ _ rfl
    have hpairs := @mapRun_insertAll_pairs (List.range n) .empty List.nodup_range
      (fun i hi => by have := List.mem_range.mp hi; omega) fun _ _ => nofun
    refine ⟨h, bs, rfl, hw.mono hw', (congrArg UserSettings.collEng hu :).trans he,
      (congrArg UserSettings.tableSize hu :), (congrArg UserSettings.hashFunc hu :),
      (congrArg UserSettings.keyCmp hu :), hrep.rep, ?_⟩
    refine hrep.holds.symm.trans ?_
    rw [mapSession, hops, hpairs, FMap.empty, List.append_nil, List.map_reverse]
    exact List.reverse_perm _

/-- A bucket holds the numbers that hash to it. -/
theorem length_bucket {u : UserSettings} {n b : Nat} {bs : List (List (Stored Unit))}
    {l : List (Stored Unit)} (ht : Table u bs) (hb : bs[b]? = some l)
    (hperm : (bs.flatten.map Stored.pair).Perm ((List.range n).map fun i => (numberKey i, ()))) :
    l.length = (List.range n).countP fun i => u.bucket (numberKey i) = b := by
  have hcount := hperm.countP_eq fun p => decide (u.bucket p.1 = b)
  rw [List.countP_map, List.countP_map] at hcount
  rw [← (ht.filter_flatten hb).length_eq, ← List.countP_eq_length_filter]
  exact hcount

/-- A hash function that tells the numbers below `2 ^ 32` from the others. -/
def splitHash (key : Bytes) (_len : UInt32) : UInt32 := if readInt 8 key < 2 ^ 32 then 0 else 1

theorem splitHash_numberKey {i : Nat} (hi : i < 2 ^ 64) (len : UInt32) :
    splitHash (numberKey i).bytes len = if i < 2 ^ 32 then 0 else 1 := by
  rw [splitHash, readInt_numberKey hi]

/-- A table of two buckets. The numbers below `2 ^ 32` belong to the first one. -/
def splitList : HiInitSet :=
  { hiSetZero with
    tableSize := 2, collEng := .list, keyCmp := some cmpBytes, hashFunc := some ⟨0, splitHash⟩ }

theorem splitList_bucket {u : UserSettings} (hhash : u.hashFunc = ⟨0, splitHash⟩)
    (hsize : u.tableSize = 2) {i : Nat} (hi : i < 2 ^ 64) :
    u.bucket (numberKey i) = if i < 2 ^ 32 then 0 else 1 := by
  unfold UserSettings.bucket HashFunc.hash
  rw [hhash, hsize]
  dsimp only
  rw [splitHash_numberKey hi]
  by_cases hlt : i < 2 ^ 32
  · rw [if_pos hlt, if_pos hlt]
    rfl
  · rw [if_neg hlt, if_neg hlt]
    rfl

/-- The numbers up to `2 ^ 32` are inserted. It is not to be unfolded. -/
@[irreducible] def splitInsertions : List (MapOp Unit) := insertAll (List.range (2 ^ 32 + 1))

/-- The table after these insertions: the first bucket counts as empty. -/
structure SplitTable (M : Nat) (h : HiHandle Unit) (w : World) (l₀ l₁ : List (Stored Unit)) : Prop where
  engine : h.collEng = .list
  tableSize : h.tableSize = 2
  keyCmp : h.keyCmp = cmpBytes
  rep : (listEngine Unit).Rep h w [l₀, l₁]
  first : l₀.length = M
  second : l₁.length = 1
  keys : ∀ x ∈ l₁, x.key = numberKey M
  found : ∀ i ≤ M, ∃ x, h.keyCmp.find [l₀, l₁].flatten (numberKey i) = some x

theorem runs_splitInsertions {M : Nat} (hM : 2 ^ 32 = M) :
    Total (session splitList splitInsertions) (World.start fun _ _ => 0) fun r w =>
      ∃ rs h l₀ l₁, r = .ok (rs, h) ∧ w.AllocsSucceed ∧ SplitTable M h w l₀ l₁ := by
  have hops : splitInsertions = insertAll (List.range (2 ^ 32 + 1)) := by
    unfold splitInsertions
    with_reducible rfl
  rw [hM] at hops
  have hrun := runs_numbers (s := splitList) rfl (by decide) rfl rfl rfl
    (World.start_allocsSucceed fun _ _ => 0) (n := M + 1) (by omega) hops
  refine hrun.imp ?_
  rintro r w ⟨h, bs, rfl, hw, he, hsize, hhash, hcmp, hrep, hperm⟩
  have ht := (listEngine Unit).table hrep
  have hbucket : ∀ i ≤ M, h.toUserSettings.bucket (numberKey i) = if i < M then 0 else 1 := by
    intro i hi
    rw [splitList_bucket hhash hsize (by omega), hM]
  obtain ⟨l₀, l₁, rfl⟩ : ∃ l₀ l₁, bs = [l₀, l₁] := by
    have hlen : bs.length = 2 := by
      rw [ht.length, hsize]
      rfl
    match bs, hlen with
    | [l₀, l₁], _ => exact ⟨l₀, l₁, rfl⟩
  have hlen₀ : l₀.length = M := by
    have hlow : (List.range M).countP (fun i => h.toUserSettings.bucket (numberKey i) = 0) = M := by
      rw [List.countP_eq_length.mpr fun i hi => ?_, List.length_range]
      have := List.mem_range.mp hi
      rw [hbucket i (by omega), if_pos this]
      rfl
    have hlast : [M].countP (fun i => h.toUserSettings.bucket (numberKey i) = 0) = 0 := by
      refine List.countP_eq_zero.mpr fun i hi => ?_
      rw [List.mem_singleton.mp hi, hbucket M (Nat.le_refl M), if_neg (Nat.lt_irrefl M)]
      decide
    rw [length_bucket ht (b := 0) rfl hperm, List.range_succ, List.countP_append, hlow, hlast,
      Nat.add_zero]
  refine ⟨_, h, l₀, l₁, rfl, hw, ⟨he, hsize, hcmp, hrep, hlen₀, ?_, fun x hx => ?_, fun i hi => ?_⟩⟩
  · have := hperm.length_eq
    simp only [List.flatten_cons, List.flatten_nil, List.append_nil, List.map_append,
      List.length_append, List.length_map, List.length_range] at this
    omega
  · have hmem := hperm.mem_iff.mp (List.mem_map_of_mem (f := Stored.pair) (a := x) (by simp [hx]))
    obtain ⟨i, hi, he⟩ := List.mem_map.mp hmem
    have hkey : numberKey i = x.key := congrArg Prod.fst he
    have hi' := List.mem_range.mp hi
    have hplaced := ht.placed 1 l₁ rfl x hx
    rw [← hkey, hbucket i (by omega)] at hplaced
    by_cases hlt : i < M
    · rw [if_pos hlt] at hplaced
      cases hplaced
    · rw [← hkey, show i = M by omega]
  · refine Option.ne_none_iff_exists'.mp fun hnone => ?_
    have hmem : (numberKey i, ()) ∈ (List.range (M + 1)).map fun i => (numberKey i, ()) :=
      List.mem_map.mpr ⟨i, List.mem_range.mpr (Nat.lt_succ_of_le hi), rfl⟩
    obtain ⟨x, hx, hpair⟩ := List.mem_map.mp (hperm.mem_iff.mpr hmem)
    refine KeyCmp.find_eq_none.mp hnone x hx ?_
    rw [hcmp]
    exact same_cmpBytes.mpr (congrArg Prod.fst hpair).symm

namespace SplitTable

variable {M : Nat} (hM : 2 ^ 32 = M) {h : HiHandle Unit} {l₀ l₁ : List (Stored Unit)}
  (ht : SplitTable M h w l₀ l₁)

theorem admits_cmpBytes {f : HashFunc} {cmp : KeyCmp} (hcmp : cmp = cmpBytes) (S : Key → Prop) :
    (listEngine Unit).Admits f cmp S := fun k k' _ _ hs => by
  rw [hcmp] at hs
  rw [same_cmpBytes.mp hs]

include ht

theorem size_ne_zero : h.tableSize ≠ 0 := by
  rw [ht.tableSize]
  decide

/-- The keys of the first bucket are found. -/
theorem runs_hiGet {i : Nat} (hi : i ≤ M) :
    Total (hiGet h (numberKey i).bytes (numberKey i).keylen) w fun a _ => a.1.status = success := by
  have hget := (listEngine Unit).get (.inl ht.engine) ht.rep ht.size_ne_zero
    (admits_cmpBytes ht.keyCmp _) (k := numberKey i)
  refine hget.imp fun a _ ha => ?_
  obtain ⟨x, hx⟩ := ht.found i hi
  rw [ha.1, hx]
  rfl

include hM

theorem copies : ∀ l ∈ [l₀, l₁], 2 ^ 32 ≤ l.length → l.length % 2 ^ 32 ≠ 0 → False := by
  intro l hl hle hmod
  have h₀ := ht.first
  have h₁ := ht.second
  rw [hM] at hle hmod
  simp only [List.mem_cons, List.not_mem_nil, or_false] at hl
  rcases hl with rfl | rfl
  · exact hmod (by rw [h₀, Nat.mod_self])
  · omega

/-- An iteration takes a snapshot of the second bucket only. -/
theorem snapshots {cmp : KeyCmp} {K : Key → Prop} {ss : List (List (Stored Unit))}
    (hss : List.Forall₂ (SnapOf cmp K) [l₀, l₁] ss) :
    ∃ s₁, ss = [[], s₁] ∧ s₁.length = 1 ∧ ∀ x ∈ s₁, x ∈ l₁ := by
  obtain _ | ⟨hs₀, _ | ⟨hs₁, _ | _⟩⟩ := hss
  have h₀ := hs₀.length
  have h₁ := hs₁.length
  rw [ht.first, hM, Nat.mod_self] at h₀
  rw [ht.second, Nat.mod_eq_of_lt (by decide)] at h₁
  exact ⟨_, by rw [List.length_eq_zero_iff.mp h₀], h₁, hs₁.subset⟩

end SplitTable

/-- A bucket whose number of entries is a multiple of `2 ^ 32` counts as empty: `hi_rehash` returns
`SUCCESS`, and the entries are gone. -/
theorem rehash_loses_entries :
    Total (session splitList splitInsertions) (World.start fun _ _ => 0) fun r w =>
      ∃ rs h, r = .ok (rs, h) ∧ Total (hiRehash h 1) w fun q w' => q.1 = success ∧
        (Total (hiGet h (numberKey 0).bytes (numberKey 0).keylen) w fun a _ =>
          a.1.status = success) ∧
        Total (hiGet q.2 (numberKey 0).bytes (numberKey 0).keylen) w' fun a _ =>
          a.1.status = hiErrNokey := by
  obtain ⟨M, hM⟩ : ∃ M, 2 ^ 32 = M := ⟨_, rfl⟩
  refine (runs_splitInsertions hM).imp ?_
  rintro r w ⟨rs, h, l₀, l₁, rfl, hw, ht⟩
  refine ⟨_, h, rfl, ?_⟩
  have had : ∀ S, (listEngine Unit).Admits h.hashFunc h.keyCmp S :=
    SplitTable.admits_cmpBytes ht.keyCmp
  refine ((listEngine Unit).runs_hiRehash (.inl ht.engine) ht.rep (.inl (by decide))
    (fun _ _ => had _) ((listEngine Unit).iterable (.inl ht.engine) ht.rep (fun _ _ _ hs => hs)
      (ht.copies hM))).imp ?_
  rintro ⟨ret, h'⟩ w' (⟨hret, -, hset, bs', ss, hrep', hss, hperm', -⟩ | ⟨-, -, hfail | hout | hclash⟩)
  · refine ⟨hret, ht.runs_hiGet (Nat.zero_le M), ?_⟩
    have hu' : h'.tableSize ≠ 0 := by
      rw [show h'.tableSize = 1 from (congrArg UserSettings.tableSize hset :)]
      decide
    have hcmp' : h'.keyCmp = cmpBytes := (congrArg UserSettings.keyCmp hset :).trans ht.keyCmp
    have hget := (listEngine Unit).get (.inl ((congrArg UserSettings.collEng hset :).trans ht.engine))
      hrep' hu' (SplitTable.admits_cmpBytes hcmp' _) (k := numberKey 0)
    refine hget.imp fun a _ ha => ?_
    have hnone : h'.keyCmp.find bs'.flatten (numberKey 0) = none := by
      refine KeyCmp.find_eq_none.mpr fun x hx hsame => ?_
      obtain ⟨s₁, rfl, -, hsub⟩ := ht.snapshots hM hss
      have hmem := hperm'.mem_iff.mp (List.mem_map_of_mem (f := Stored.pair) hx)
      obtain ⟨y, hy, hpair⟩ := List.mem_map.mp hmem
      have hkey : y.key = x.key := congrArg Prod.fst hpair
      rw [hcmp', same_cmpBytes, ← hkey, ht.keys y (hsub y (by simpa using hy))] at hsame
      have := numberKey_inj (by omega) (by omega) hsame
      omega
    rw [ha.1, hnone]
    rfl
  · exact (hfail hw).elim
  · obtain ⟨ss, hss, hout⟩ := hout
    obtain ⟨s₁, rfl, hlen, -⟩ := ht.snapshots hM hss
    have := congrArg List.length hout
    rw [length_handedOut] at this
    simp [hlen] at this
  · obtain ⟨i, done, x, hi, hfind⟩ := hclash
    have hle := hi.length_le fun _ _ hs => Nat.le_of_eq hs.length
    have hdone : done = [] := by
      refine List.length_eq_zero_iff.mp ?_
      simp only [List.length_append, List.length_singleton, List.map_cons, List.map_nil,
        List.sum_cons, List.sum_nil, ht.first, ht.second, hM, Nat.mod_self] at hle
      rw [Nat.mod_eq_of_lt (by omega)] at hle
      omega
    rw [hdone] at hfind
    exact (hfind rfl).elim

end Hashish
