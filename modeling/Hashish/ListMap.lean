import Hashish.Engine
import Hashish.ListSpec

/-!
# The list engines as maps

`COLL_ENG_LIST` and `COLL_ENG_LIST_MTF` compare keys only. They rely on equal keys
having equal hashes, and on nothing else.
-/

namespace Hashish

open Hashish.Lib

variable {δ : Type} {w : World} {h : HiHandle δ} {os : List (List (Obj δ))}

/-! ## The test of the walks -/

/-- The test of a walk for the key `k`, on what an object shows. -/
def keyTest (cmp : KeyCmp) (k : Key) (x : Obj δ) : Bool := cmp.same k x.key

theorem keyHit_eq {k : Key} (o : HiBucketHlObj δ) (x : Obj δ) (hs : (objLinkage δ).shows o x) :
    h.keyHit k.bytes o = keyTest h.keyCmp k x := by
  have hkey : o.key.cells = x.key.bytes := congrArg (fun e => e.key.cells) hs.1
  rw [HiHandle.keyHit, hkey]
  rfl

theorem find_of_test_none {cmp : KeyCmp} {k : Key} {l : List (Obj δ)}
    (hl : ∀ x ∈ l, keyTest cmp k x = false) : cmp.find (l.map Obj.toStored) k = none := by
  refine KeyCmp.find_eq_none.mpr fun x hx => ?_
  obtain ⟨y, hy, rfl⟩ := List.mem_map.mp hx
  simpa [keyTest] using hl y hy

theorem find_of_test {cmp : KeyCmp} {k : Key} {l₁ l₂ : List (Obj δ)} {x : Obj δ}
    (hl : ∀ y ∈ l₁, keyTest cmp k y = false) (hx : keyTest cmp k x = true) :
    cmp.find ((l₁ ++ x :: l₂).map Obj.toStored) k = some x.toStored := by
  rw [List.map_append, KeyCmp.find_append, find_of_test_none hl, Option.none_or, List.map_cons,
    KeyCmp.find_cons, if_pos (by simpa [keyTest] using hx)]

/-! ## The contents as buckets of stored pairs -/

theorem contents_set (b : Nat) (l : List (Obj δ)) :
    contents (os.set b l) = (contents os).set b (l.map Obj.toStored) := by
  rw [contents, contents, List.map_set]

theorem contents_getElem {b : Nat} {l : List (Obj δ)} (hb : os[b]? = some l) :
    (contents os)[b]? = some (l.map Obj.toStored) := by
  simp [contents, hb]

theorem ListRep.exists_bucket (hr : ListRep h w os) (hu : h.tableSize ≠ 0) (k : Key) :
    ∃ l, os[h.toUserSettings.bucket k]? = some l := by
  obtain ⟨m, hm⟩ := hr.table.exists_bucket hu k
  rw [contents, List.getElem?_map, Option.map_eq_some_iff] at hm
  obtain ⟨l, hl, -⟩ := hm
  exact ⟨l, hl⟩

/-- The key is looked up in its bucket. -/
theorem ListRep.find_contents (hr : ListRep h w os) {k : Key} {l : List (Obj δ)}
    (hok : h.hashFunc.Respects h.keyCmp (keysWith (contents os).flatten k))
    (hb : os[h.toUserSettings.bucket k]? = some l) :
    h.keyCmp.find (contents os).flatten k = h.keyCmp.find (l.map Obj.toStored) k :=
  hr.table.find_flatten hok (contents_getElem hb)

/-! ## The operations -/

/-- The engines that compare keys only. -/
def plainList (e : CollEng) : Prop := e = .list ∨ e = .listMtf

section Operations

variable {k : Key} (he : plainList h.collEng) (hr : ListRep h w os) (hu : h.tableSize ≠ 0)
  (hok : h.hashFunc.Respects h.keyCmp (keysWith (contents os).flatten k))
include he hr hu hok

theorem list_lookup : Total (hiLookup h k.bytes k.keylen) w fun ret _ =>
    (ret = success ∧ h.keyCmp.find (contents os).flatten k ≠ none) ∨
    (ret ≠ success ∧ h.keyCmp.find (contents os).flatten k = none) := by
  obtain ⟨l, hb⟩ := hr.exists_bucket hu k
  have hseek : Total (h.seekBucket (h.toUserSettings.bucket k) (h.keyHit k.bytes))
      (w.log (.lock h.mutexLock)) fun r _ =>
      (r ≠ none ∧ h.keyCmp.find (contents os).flatten k ≠ none) ∨
      (r = none ∧ h.keyCmp.find (contents os).flatten k = none) := by
    refine (hr.mono (w.le_log _)).runs_seekBucket hb keyHit_eq (fun hn => .inr ⟨rfl, ?_⟩) ?_
    · rw [hr.find_contents hok hb, find_of_test_none hn]
    · rintro l₁ x l₂ rfl hn hx
      refine .inl ⟨nofun, ?_⟩
      rw [hr.find_contents hok hb, find_of_test hn hx]
      exact nofun
  have hlook : Total (lhiLookupList h k.bytes k.keylen) (w.log (.lock h.mutexLock)) fun ret _ =>
      (ret = success ∧ h.keyCmp.find (contents os).flatten k ≠ none) ∨
      (ret ≠ success ∧ h.keyCmp.find (contents os).flatten k = none) := by
    unfold lhiLookupList
    refine runs_bind.mpr ((runs_bucketOf hu k).mpr ?_)
    rcases he with he | he <;>
    · simp only [he]
      refine Runs.bind hseek fun r w' _ hr => ?_
      rcases hr with ⟨hr, hf⟩ | ⟨rfl, hf⟩
      · obtain ⟨p, rfl⟩ := Option.ne_none_iff_exists'.mp hr
        exact .inl ⟨rfl, hf⟩
      · exact .inr ⟨by decide, hf⟩
  unfold hiLookup
  rcases he with he | he <;>
  · simp only [he, runs_bind, runs_mutexLock]
    refine hlook.imp fun ret w' h' => ?_
    simp only [runs_mutexUnlock, runs_pure]
    exact h'

theorem list_get : Total (hiGet h k.bytes k.keylen) w fun r w' =>
    r.1 = resultOf (h.keyCmp.find (contents os).flatten k) ∧
      r.2.toUserSettings = h.toUserSettings ∧
      ∃ os', ListRep r.2 w' os' ∧ List.Forall₂ List.Perm (contents os') (contents os) := by
  obtain ⟨l, hb⟩ := hr.exists_bucket hu k
  have hsame : List.Forall₂ List.Perm (contents os) (contents os) :=
    List.forall₂_same.mpr fun _ _ => .refl _
  rw [hr.find_contents hok hb]
  have hnone : (∀ x ∈ l, keyTest h.keyCmp k x = false) →
      (⟨hiErrNokey, none⟩ : Result δ) = resultOf (h.keyCmp.find (l.map Obj.toStored) k) := by
    intro hn
    rw [find_of_test_none hn]
    rfl
  unfold hiGet lhiGetList
  rcases he with he | he
  · simp only [he, runs_bind, runs_bucketOf hu, runs_mutexLock]
    have hlog := w.le_log (.lock h.mutexLock)
    refine (hr.mono hlog).runs_getHit hb keyHit_eq (fun hn w' hw _ _ => ?_) ?_
    · exact ⟨hnone hn, rfl, os, hr.mono (hlog.trans hw), hsame⟩
    · rintro l₁ x l₂ w' rfl hn hx hw - -
      refine ⟨?_, rfl, os, hr.mono (hlog.trans hw), hsame⟩
      rw [find_of_test hn hx]
      rfl
  · simp only [he, runs_bind, runs_bucketOf hu]
    refine hr.runs_getHitMtf hb keyHit_eq (fun hn w' hw _ _ => ?_) ?_
    · exact ⟨hnone hn, rfl, os, hr.mono hw, hsame⟩
    · rintro l₁ x l₂ h' w' rfl hn hx hr' hu' hw - -
      refine ⟨?_, hu', _, hr', ?_⟩
      · rw [find_of_test hn hx]
        rfl
      · rw [contents_set]
        exact forall₂_perm_set (contents_getElem hb) (List.perm_middle.symm.map _)

theorem list_remove : Total (hiRemove h k.bytes k.keylen) w fun r w' =>
    r.1 = resultOf (h.keyCmp.find (contents os).flatten k) ∧
      r.2.toUserSettings = h.toUserSettings ∧
      ∃ os', ListRep r.2 w' os' ∧
        match h.keyCmp.find (contents os).flatten k with
        | none => (contents os').flatten.Perm (contents os).flatten
        | some x => (contents os).flatten.Perm (x :: (contents os').flatten) := by
  obtain ⟨l, hb⟩ := hr.exists_bucket hu k
  rw [hr.find_contents hok hb]
  have hlog := w.le_log (.lock h.mutexLock)
  have hremove : Total (h.removeHit (h.toUserSettings.bucket k) (h.keyHit k.bytes))
      (w.log (.lock h.mutexLock)) fun r w' =>
      r.1 = resultOf (h.keyCmp.find (l.map Obj.toStored) k) ∧
        r.2.toUserSettings = h.toUserSettings ∧
        ∃ os', ListRep r.2 w' os' ∧
          match h.keyCmp.find (l.map Obj.toStored) k with
          | none => (contents os').flatten.Perm (contents os).flatten
          | some x => (contents os).flatten.Perm (x :: (contents os').flatten) := by
    refine (hr.mono hlog).runs_removeHit hb keyHit_eq (fun hn w' hw _ _ => ?_) ?_
    · rw [find_of_test_none hn]
      exact ⟨rfl, rfl, os, hr.mono (hlog.trans hw), .refl _⟩
    · rintro l₁ x l₂ h' w' rfl hn hx hr' hu' hw - -
      rw [find_of_test hn hx]
      refine ⟨rfl, hu', _, hr', ?_⟩
      have hold := flatten_perm (contents_getElem hb)
      have hnew := flatten_set_perm (contents_getElem hb) ((l₁ ++ l₂).map Obj.toStored)
      rw [contents_set]
      refine hold.trans (.trans ?_ (hnew.symm.cons _))
      simp only [List.map_append, List.map_cons, List.append_assoc, List.cons_append]
      exact List.perm_middle
  unfold hiRemove lhiRemoveList
  rcases he with he | he <;>
  · simp only [he, runs_bind, runs_mutexLock, runs_bucketOf hu]
    exact hremove

theorem list_insert {d : δ} : Total (engineInsert h k.bytes k.keylen d) w fun r w' =>
    r.2.toUserSettings = h.toUserSettings ∧
      ((r.1 = success ∧ ∃ x os', x.pair = (k, d) ∧ ListRep r.2 w' os' ∧
          (contents os').flatten.Perm (x :: (contents os).flatten) ∧
          ∀ q, h.hashFunc.Respects h.keyCmp (keysWith (x :: (contents os).flatten) q) →
            h.keyCmp.find (contents os').flatten q =
              h.keyCmp.find (x :: (contents os).flatten) q) ∨
        (r.1 ≠ success ∧ r.1 ≠ hiErrDupkey ∧ w.SomeFailed w' ∧ r.2 = h)) := by
  obtain ⟨l, hb⟩ := hr.exists_bucket hu k
  have hinsert : Total (lhiInsertList h k.bytes k.keylen d) w fun r w' =>
      r.2.toUserSettings = h.toUserSettings ∧
        ((r.1 = success ∧ ∃ x os', x.pair = (k, d) ∧ ListRep r.2 w' os' ∧
            (contents os').flatten.Perm (x :: (contents os).flatten) ∧
            ∀ q, h.hashFunc.Respects h.keyCmp (keysWith (x :: (contents os).flatten) q) →
              h.keyCmp.find (contents os').flatten q =
                h.keyCmp.find (x :: (contents os).flatten) q) ∨
          (r.1 ≠ success ∧ r.1 ≠ hiErrDupkey ∧ w.SomeFailed w' ∧ r.2 = h)) := by
    refine hr.runs_lhiInsertList hu hb (fun ret n w' hret hw _ hs => ?_) ?_
    · refine ⟨rfl, .inr ⟨?_, ?_, hs.someFailed, rfl⟩⟩
      · show ret ≠ success
        exact Int.ne_of_gt hret
      · show ret ≠ hiErrDupkey
        rw [hiErrDupkey]
        omega
    · rintro x h' w' junk rfl rfl hjunk hkh hr' hu' hw - -
      refine ⟨hu', .inl ⟨rfl, x.toStored, _, rfl, hr', ?_, fun q hq => ?_⟩⟩
      · rw [contents_set]
        refine (flatten_set_perm (contents_getElem hb) _).trans ?_
        exact (flatten_perm (contents_getElem hb)).symm.cons _
      · rw [contents_set]
        exact hr.table.find_set_cons hu (contents_getElem hb) hq
  unfold engineInsert
  rcases he with he | he <;>
  · simp only [he]
    exact hinsert

end Operations

/-! ## The engine -/

theorem list_snapshot {E : Fault → Prop} {b : Nat} {l : List (Obj δ)} {a : BucketArray δ}
    {K : Key → Prop} (he : plainList h.collEng) (hr : ListRep h w os) (hb : os[b]? = some l)
    (hE : 2 ^ 32 ≤ l.length → l.length % 2 ^ 32 ≠ 0 → E .badAddress) :
    Runs E (lhiListBucketToArray h b a) w fun r _ =>
      (r = (hiErrNodata, a) ∧ l.length % 2 ^ 32 = 0) ∨
      (r = (hiErrSystem, a) ∧ ¬ w.AllocsSucceed) ∨
      (r.1 = 0 ∧ ∃ s, s ≠ [] ∧ r.2.nmemb = s.length ∧ r.2.Shows (s.map some) ∧
        SnapOf h.keyCmp K (l.map Obj.toStored) s) := by
  refine hr.runs_lhiListBucketToArray hb (he.elim .inl fun he => .inr (.inl he)) hE
    (fun hm w' _ _ => .inl ⟨rfl, hm⟩)
    (fun _ w' _ _ _ hs => .inr (.inl ⟨rfl, hs.not_allocsSucceed⟩)) ?_
  intro hne hlt a' w' hw _ hn ha
  refine .inr (.inr ⟨rfl, l.map Obj.toStored, by simpa using hne, by simpa using hn, ha, ?_⟩)
  refine ⟨?_, .refl _, fun _ _ _ => rfl⟩
  rw [List.length_map, Nat.mod_eq_of_lt hlt]

theorem list_fini (he : plainList h.collEng) (hr : ListRep h w os) :
    Total (lhiFiniInternal h) w fun r _ => r.1 = 0 := by
  unfold lhiFiniInternal
  rcases he with he | he <;>
  · simp only [he, runs_bind, runs_mutexLock]
    refine (hr.mono (w.le_log _)).runs_lhiFiniList fun objs w' _ _ => ?_
    simp only [finishFini, runs_bind, runs_mutexUnlock]
    exact runs_lockDestroy fun _ _ _ _ _ _ => runs_free fun _ _ _ => rfl

/-- The list engines without a second hash. -/
def listEngine (δ : Type) : Engine δ where
  covers := plainList
  Admits f cmp S := f.Respects cmp S
  Rep h w bs := ∃ os, ListRep h w os ∧ contents os = bs
  toArray := lhiListBucketToArray
  lateDup := False
  admits_mono h hS k k' hk hk' := h k k' (hS k hk) (hS k' hk')
  respects h := h
  getNextBucket_eq he := by
    rcases he with he | he <;> simp only [getNextBucket, he] <;> rfl
  table := by
    rintro h w _ ⟨os, hr, rfl⟩
    exact hr.table
  mono := by
    rintro h w w' _ ⟨os, hr, rfl⟩ hw
    exact ⟨os, hr.mono hw, rfl⟩
  count := by
    rintro h w _ ⟨os, hr, rfl⟩
    rw [hr.count, contents, ← List.map_flatten, List.length_map]
  relabel := by
    rintro h w _ a p ⟨os, hr, rfl⟩
    exact ⟨os, { hr with table := ⟨hr.table.length, hr.table.placed⟩ }, rfl⟩
  lookup := by
    rintro h w _ k he ⟨os, hr, rfl⟩ hu hok
    exact (list_lookup he hr hu hok).imp fun ret _ h' => h'.imp_right fun h' => ⟨h'.1, .inr h'.2⟩
  get := by
    rintro h w _ k he ⟨os, hr, rfl⟩ hu hok
    refine (list_get he hr hu hok).imp fun r w' h' => ?_
    obtain ⟨h₁, h₂, os', hr', hp⟩ := h'
    exact ⟨h₁, h₂, _, ⟨os', hr', rfl⟩, hp⟩
  remove := by
    rintro h w _ k he ⟨os, hr, rfl⟩ hu hok
    refine (list_remove he hr hu hok).imp fun r w' h' => ?_
    obtain ⟨h₁, h₂, os', hr', hp⟩ := h'
    exact ⟨h₁, h₂, _, ⟨os', hr', rfl⟩, hp⟩
  insert := by
    rintro h w _ k d he ⟨os, hr, rfl⟩ hu hok -
    refine (list_insert he hr hu hok).imp fun r w' h' => ?_
    obtain ⟨hu', ⟨h₁, x, os', hx, hr', hp, hf⟩ | h'⟩ := h'
    · exact ⟨hu', .inl ⟨h₁, x, _, hx, ⟨os', hr', rfl⟩, hp, hf⟩⟩
    · exact ⟨hu', .inr h'⟩
  insertDup h := h.elim
  snapshot := by
    rintro E h w _ b l a he ⟨os, hr, rfl⟩ hl hE
    rw [contents, List.getElem?_map, Option.map_eq_some_iff] at hl
    obtain ⟨m, hm, rfl⟩ := hl
    simpa using list_snapshot he hr hm (by simpa using hE)
  fini := by
    rintro h w _ he ⟨os, hr, rfl⟩
    exact list_fini he hr
  create := by
    intro w u p sizes lock he
    unfold createEng
    have hcreate : Total (lhiCreateEngList (HiHandle.ofSettings u p sizes lock : HiHandle δ)) w
        fun r w' => (r = .error hiErrSystem ∧ ¬ w.AllocsSucceed) ∨
          ∃ h, r = .ok h ∧ h.toUserSettings = u ∧
            ∃ os, ListRep h w' os ∧ contents os = List.replicate u.tableSize.toNat [] := by
      refine ListRep.runs_lhiCreateEngList (fun w' _ hs => .inl ⟨rfl, hs⟩) fun h' w' _ _ hr hu _ => ?_
      exact .inr ⟨h', rfl, hu, _, hr, by simp [contents]⟩
    have he' : (HiHandle.ofSettings u p sizes lock : HiHandle δ).collEng = u.collEng := rfl
    rcases he with he | he <;>
    · simp only [he', he]
      exact hcreate

end Hashish
