import Hashish.Contents
import Hashish.MapMachine
import Hashish.Snapshots

/-!
# What an engine does for the rest of the library

The operations, the iterators and rehashing rely on few facts about an engine. An
`Engine` collects them: which contents a handle represents, and what each function of
the engine does to these contents. The list engines without a second hash and the tree
engine are instances.

What an engine relies on in turn is `Admits f cmp S`: the hash function `f` and the
compare function `cmp` behave on the keys `S`.
-/

namespace Hashish

open Hashish.Lib

variable {δ : Type}

/-- What the snapshot `s` of the bucket `l` holds. The counter of the bucket has 32 bits. The keys
`K` are found in the snapshot as in the bucket. -/
structure SnapOf (cmp : KeyCmp) (K : Key → Prop) (l s : List (Stored δ)) : Prop where
  length : s.length = l.length % 2 ^ 32
  subperm : s.Subperm l
  find : l.length < 2 ^ 32 → ∀ k, K k → cmp.find s k = cmp.find l k

theorem SnapOf.subset {cmp : KeyCmp} {K : Key → Prop} {l s : List (Stored δ)} (h : SnapOf cmp K l s) :
    ∀ x ∈ s, x ∈ l := fun _ hx => h.subperm.subset hx

/-- A bucket whose counter has not wrapped is copied completely. -/
theorem SnapOf.perm {cmp : KeyCmp} {K : Key → Prop} {l s : List (Stored δ)} (h : SnapOf cmp K l s)
    (hlt : l.length < 2 ^ 32) : s.Perm l :=
  h.subperm.perm_of_length_le (by rw [h.length, Nat.mod_eq_of_lt hlt])

/-- A bucket whose counter is zero counts as empty. -/
theorem SnapOf.nil {cmp : KeyCmp} {K : Key → Prop} {l : List (Stored δ)}
    (h : l.length % 2 ^ 32 = 0) : SnapOf cmp K l [] := by
  have hl : l.length < 2 ^ 32 → l = [] := fun hlt =>
    List.length_eq_zero_iff.mp (by rwa [Nat.mod_eq_of_lt hlt] at h)
  exact ⟨h.symm, List.nil_subperm, fun hlt _ _ => by rw [hl hlt]⟩

/-- An engine, the contents its handles represent, and the facts about its functions that the
rest of the library relies on. `lateDup` tells that a key which is already there is noticed by the
insertion function and not by `hi_lookup`. -/
structure Engine (δ : Type) where
  covers : CollEng → Prop
  Admits : HashFunc → KeyCmp → (Key → Prop) → Prop
  Rep : HiHandle δ → World → List (List (Stored δ)) → Prop
  toArray : ToArray δ
  lateDup : Prop
  admits_mono : ∀ {f cmp S S'}, Admits f cmp S' → (∀ q, S q → S' q) → Admits f cmp S
  respects : ∀ {f cmp S}, Admits f cmp S → f.Respects cmp S
  getNextBucket_eq : ∀ {err} {t : HiHandle δ} {i}, covers t.collEng →
    getNextBucket err t i = getNext toArray t i
  table : ∀ {h w bs}, Rep h w bs → Table h.toUserSettings bs
  mono : ∀ {h w w' bs}, Rep h w bs → w ≤ w' → Rep h w' bs
  count : ∀ {h w bs}, Rep h w bs → h.noObjects = UInt32.ofNat bs.flatten.length
  relabel : ∀ {h w bs} a p, Rep h w bs → Rep { h with rehashAuto := a, self := p } w bs
  lookup : ∀ {h w bs k}, covers h.collEng → Rep h w bs → h.tableSize ≠ 0 →
    Admits h.hashFunc h.keyCmp (keysWith bs.flatten k) →
    Total (hiLookup h k.bytes k.keylen) w fun ret _ =>
      (ret = success ∧ h.keyCmp.find bs.flatten k ≠ none) ∨
      (ret ≠ success ∧ (lateDup ∨ h.keyCmp.find bs.flatten k = none))
  get : ∀ {h w bs k}, covers h.collEng → Rep h w bs → h.tableSize ≠ 0 →
    Admits h.hashFunc h.keyCmp (keysWith bs.flatten k) →
    Total (hiGet h k.bytes k.keylen) w fun r w' =>
      r.1 = resultOf (h.keyCmp.find bs.flatten k) ∧ r.2.toUserSettings = h.toUserSettings ∧
      ∃ bs', Rep r.2 w' bs' ∧ List.Forall₂ List.Perm bs' bs
  remove : ∀ {h w bs k}, covers h.collEng → Rep h w bs → h.tableSize ≠ 0 →
    Admits h.hashFunc h.keyCmp (keysWith bs.flatten k) →
    Total (hiRemove h k.bytes k.keylen) w fun r w' =>
      r.1 = resultOf (h.keyCmp.find bs.flatten k) ∧ r.2.toUserSettings = h.toUserSettings ∧
      ∃ bs', Rep r.2 w' bs' ∧
        match h.keyCmp.find bs.flatten k with
        | none => bs'.flatten.Perm bs.flatten
        | some x => bs.flatten.Perm (x :: bs'.flatten)
  insert : ∀ {h w bs k d}, covers h.collEng → Rep h w bs → h.tableSize ≠ 0 →
    Admits h.hashFunc h.keyCmp (keysWith bs.flatten k) → h.keyCmp.find bs.flatten k = none →
    Total (engineInsert h k.bytes k.keylen d) w fun r w' =>
      r.2.toUserSettings = h.toUserSettings ∧
      ((r.1 = success ∧ ∃ x bs', x.pair = (k, d) ∧ Rep r.2 w' bs' ∧
          bs'.flatten.Perm (x :: bs.flatten) ∧
          ∀ q, Admits h.hashFunc h.keyCmp (keysWith (x :: bs.flatten) q) →
            h.keyCmp.find bs'.flatten q = h.keyCmp.find (x :: bs.flatten) q) ∨
        (r.1 ≠ success ∧ r.1 ≠ hiErrDupkey ∧ w.SomeFailed w' ∧ r.2 = h))
  insertDup : ∀ {h w bs k d}, lateDup → covers h.collEng → Rep h w bs → h.tableSize ≠ 0 →
    Admits h.hashFunc h.keyCmp (keysWith bs.flatten k) → h.keyCmp.find bs.flatten k ≠ none →
    Total (engineInsert h k.bytes k.keylen d) w fun r _ => r = (hiErrDupkey, h)
  snapshot : ∀ {E : Fault → Prop} {h w bs b l a}, covers h.collEng → Rep h w bs →
    bs[b]? = some l → (2 ^ 32 ≤ l.length → l.length % 2 ^ 32 ≠ 0 → E .badAddress) →
    Runs E (toArray h b a) w fun r _ =>
      (r = (hiErrNodata, a) ∧ l.length % 2 ^ 32 = 0) ∨
      (r = (hiErrSystem, a) ∧ ¬ w.AllocsSucceed) ∨
      (r.1 = 0 ∧ ∃ s, s ≠ [] ∧ r.2.nmemb = s.length ∧ r.2.Shows (s.map some) ∧
        SnapOf h.keyCmp (fun q => Admits h.hashFunc h.keyCmp (keysWith bs.flatten q)) l s)
  fini : ∀ {h w bs}, covers h.collEng → Rep h w bs →
    Total (lhiFiniInternal h) w fun r _ => r.1 = 0
  create : ∀ {w u p sizes lock}, covers u.collEng →
    Total (createEng (HiHandle.ofSettings u p sizes lock : HiHandle δ)) w fun r w' =>
      (r = .error hiErrSystem ∧ ¬ w.AllocsSucceed) ∨
      ∃ h, r = .ok h ∧ h.toUserSettings = u ∧ Rep h w' (List.replicate u.tableSize.toNat [])

end Hashish
