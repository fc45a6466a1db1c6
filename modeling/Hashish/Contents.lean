import Hashish.Lib.Buckets
import Hashish.Types

/-!
# What a table stores

The contents of a table as a list of buckets, each a list of stored pairs, and
what the operations answer in terms of the contents.

* `Table.find_flatten`: when equal keys have equal hashes, a key is looked up in one
  bucket as in the whole contents, in whatever order the buckets are visited.
-/

namespace Hashish

open Hashish.Lib

variable {δ : Type}

/-- A stored pair with the address of the copy of its key. -/
structure Stored (δ : Type) where
  key : Key
  data : δ
  keyAddr : Ptr

/-- The entry fields of the object that stores a pair. -/
def Stored.entry (x : Stored δ) : Entry δ := ⟨x.key.keylen, ⟨some x.keyAddr, x.key.bytes⟩, x.data⟩

/-- The pair without the address of its copy. -/
def Stored.pair (x : Stored δ) : Key × δ := (x.key, x.data)

/-- The blocks of a handle that do not depend on its engine. -/
def HiHandle.baseBlocks (h : HiHandle δ) : List Ptr :=
  h.mutexLock.toList ++ (h.bucketSize.addr.toList ++ [h.self])

/-! ## Counters -/

theorem ofNat_succ (n : Nat) : UInt32.ofNat (n + 1) = UInt32.ofNat n + 1 := UInt32.ofNat_add n 1

theorem ofNat_pred (n : Nat) : UInt32.ofNat (n + 1) - 1 = UInt32.ofNat n := by
  rw [ofNat_succ, UInt32.add_sub_cancel]

/-! ## Comparing keys -/

/-- `key_cmp(k, k') == 0`. -/
def KeyCmp.same (cmp : KeyCmp) (k k' : Key) : Prop := cmp k.bytes k'.bytes = 0

instance (cmp : KeyCmp) : DecidableRel cmp.same := fun _ _ => inferInstanceAs (Decidable (_ = _))

/-- Among the keys `S`, equal keys have equal hashes. -/
def HashFunc.Respects (f : HashFunc) (cmp : KeyCmp) (S : Key → Prop) : Prop :=
  ∀ k k', S k → S k' → cmp.same k k' → f.hash k = f.hash k'

/-- The stored pair that a search for `k` finds first. -/
def KeyCmp.find (cmp : KeyCmp) (E : List (Stored δ)) (k : Key) : Option (Stored δ) :=
  E.find? fun x => decide (cmp.same k x.key)

/-- `k` and the keys of the stored pairs `E`. -/
def keysWith (E : List (Stored δ)) (k : Key) : Key → Prop := fun q => q = k ∨ ∃ x ∈ E, x.key = q

theorem keysWith_self {E : List (Stored δ)} {k : Key} : keysWith E k k := .inl rfl

theorem keysWith_mem {E : List (Stored δ)} {k : Key} {x : Stored δ} (hx : x ∈ E) :
    keysWith E k x.key := .inr ⟨x, hx, rfl⟩

theorem keysWith_mono {E E' : List (Stored δ)} {k q : Key}
    (h : ∀ x ∈ E, ∃ y ∈ E', y.key = x.key) (hq : keysWith E k q) : keysWith E' k q := by
  rcases hq with rfl | ⟨x, hx, rfl⟩
  · exact keysWith_self
  · obtain ⟨y, hy, he⟩ := h x hx
    exact he ▸ keysWith_mem hy

namespace KeyCmp

variable {cmp : KeyCmp} {E E' : List (Stored δ)} {k : Key}

theorem find_eq_none : cmp.find E k = none ↔ ∀ x ∈ E, ¬ cmp.same k x.key := by
  simp [find]

theorem find_append : cmp.find (E ++ E') k = (cmp.find E k).or (cmp.find E' k) := by
  simp [find]

theorem find_cons {x : Stored δ} :
    cmp.find (x :: E) k = if cmp.same k x.key then some x else cmp.find E k := by
  rw [find, List.find?_cons]
  by_cases h : cmp.same k x.key <;> simp [h, find]

theorem mem_of_find {x : Stored δ} (h : cmp.find E k = some x) : x ∈ E := List.mem_of_find?_eq_some h

theorem same_of_find {x : Stored δ} (h : cmp.find E k = some x) : cmp.same k x.key := by
  simpa using List.find?_some h

/-- When at most one pair has the key `k`, the order of the pairs does not matter. -/
theorem find_perm (h : E.Perm E')
    (hk : ∀ x ∈ E, ∀ y ∈ E, cmp.same k x.key → cmp.same k y.key → x = y) :
    cmp.find E k = cmp.find E' k := by
  cases hx : cmp.find E k with
  | none =>
    refine (find_eq_none.mpr fun x hx' => ?_).symm
    exact find_eq_none.mp hx x (h.mem_iff.mpr hx')
  | some x =>
    cases hy : cmp.find E' k with
    | none => exact (find_eq_none.mp hy x (h.mem_iff.mp (mem_of_find hx)) (same_of_find hx)).elim
    | some y =>
      rw [hk x (mem_of_find hx) y (h.mem_iff.mpr (mem_of_find hy)) (same_of_find hx)
        (same_of_find hy)]

end KeyCmp

/-- The result of `hi_get` and `hi_remove` when the search gives `x`. -/
def resultOf (x : Option (Stored δ)) : Result δ :=
  match x with
  | none => ⟨hiErrNokey, none⟩
  | some x => ⟨success, some x.data⟩

/-! ## Tables -/

/-- The bucket of a key. -/
def UserSettings.bucket (u : UserSettings) (k : Key) : Nat :=
  (u.hashFunc.hash k % u.tableSize).toNat

theorem UserSettings.bucket_lt {u : UserSettings} (hu : u.tableSize ≠ 0) (k : Key) :
    u.bucket k < u.tableSize.toNat := by
  rw [bucket, UInt32.toNat_mod]
  exact Nat.mod_lt _ (Nat.pos_of_ne_zero fun h => hu (UInt32.toNat_inj.mp h))

theorem runs_bucketOf {E : Fault → Prop} {w : World} {Q : Nat → World → Prop} {h : HiHandle δ}
    (hu : h.tableSize ≠ 0) (k : Key) :
    Runs E (h.bucketOf k.bytes k.keylen) w Q ↔ Q (h.toUserSettings.bucket k) w := by
  simp only [HiHandle.bucketOf, umod, if_neg hu, runs_bind, runs_pure]
  exact Iff.rfl

/-- Buckets for the given settings, each key in the bucket of its hash. -/
structure Table (u : UserSettings) (bs : List (List (Stored δ))) : Prop where
  length : bs.length = u.tableSize.toNat
  placed : ∀ (b : Nat) (l : List (Stored δ)), bs[b]? = some l → ∀ x ∈ l, u.bucket x.key = b

namespace Table

variable {u : UserSettings} {bs : List (List (Stored δ))}

theorem exists_bucket (ht : Table u bs) (hu : u.tableSize ≠ 0) (k : Key) :
    ∃ l, bs[u.bucket k]? = some l := by
  have hlt := u.bucket_lt hu k
  rw [← ht.length] at hlt
  exact ⟨_, List.getElem?_eq_getElem hlt⟩

/-- The bucket of `k`, and around it buckets without a key that is equal to `k`. -/
theorem split (ht : Table u bs) {k : Key} (hok : u.hashFunc.Respects u.keyCmp (keysWith bs.flatten k))
    {l : List (Stored δ)} (hl : bs[u.bucket k]? = some l) :
    ∃ pre post, bs = pre ++ l :: post ∧ (∀ m ∈ pre, u.keyCmp.find m k = none) ∧
      ∀ m ∈ post, u.keyCmp.find m k = none := by
  have hother : ∀ b m, bs[b]? = some m → b ≠ u.bucket k → u.keyCmp.find m k = none := by
    intro b m hm hb
    refine KeyCmp.find_eq_none.mpr fun x hx hs => hb ?_
    have hxm : x ∈ bs.flatten := List.mem_flatten.mpr ⟨m, List.mem_of_getElem? hm, hx⟩
    rw [← ht.placed b m hm x hx, UserSettings.bucket, UserSettings.bucket,
      hok k x.key keysWith_self (keysWith_mem hxm) hs]
  obtain ⟨hlt, hget⟩ := List.getElem?_eq_some_iff.mp hl
  refine ⟨bs.take (u.bucket k), bs.drop (u.bucket k + 1), ?_, fun m hm => ?_, fun m hm => ?_⟩
  · rw [← hget, List.getElem_cons_drop, List.take_append_drop]
  · obtain ⟨b, hb⟩ := List.mem_iff_getElem?.mp hm
    rw [List.getElem?_take] at hb
    split at hb
    · rename_i hlt
      exact hother b m hb (Nat.ne_of_lt hlt)
    · cases hb
  · obtain ⟨b, hb⟩ := List.mem_iff_getElem?.mp hm
    rw [List.getElem?_drop] at hb
    exact hother _ m hb (by omega)

theorem find_flatten_none {cmp : KeyCmp} {k : Key} (h : ∀ m ∈ bs, cmp.find m k = none) :
    cmp.find bs.flatten k = none := by
  refine KeyCmp.find_eq_none.mpr fun x hx => ?_
  obtain ⟨m, hm, hxm⟩ := List.mem_flatten.mp hx
  exact KeyCmp.find_eq_none.mp (h m hm) x hxm

/-- The other buckets hold no key that is equal to `k`. -/
theorem find_flatten (ht : Table u bs) {k : Key}
    (hok : u.hashFunc.Respects u.keyCmp (keysWith bs.flatten k)) {l : List (Stored δ)}
    (hl : bs[u.bucket k]? = some l) : u.keyCmp.find bs.flatten k = u.keyCmp.find l k := by
  obtain ⟨pre, post, he, hpre, hpost⟩ := ht.split hok hl
  rw [he, List.flatten_append, List.flatten_cons, KeyCmp.find_append, KeyCmp.find_append,
    find_flatten_none hpre, find_flatten_none hpost]
  simp

theorem find_flatten_reverse (ht : Table u bs) {k : Key}
    (hok : u.hashFunc.Respects u.keyCmp (keysWith bs.flatten k)) {l : List (Stored δ)}
    (hl : bs[u.bucket k]? = some l) : u.keyCmp.find bs.reverse.flatten k = u.keyCmp.find l k := by
  obtain ⟨pre, post, he, hpre, hpost⟩ := ht.split hok hl
  rw [he, List.reverse_append, List.reverse_cons, List.flatten_append, List.flatten_append,
    List.flatten_singleton, KeyCmp.find_append, KeyCmp.find_append,
    find_flatten_none fun m hm => hpre m (List.mem_reverse.mp hm),
    find_flatten_none fun m hm => hpost m (List.mem_reverse.mp hm)]
  simp

/-- A bucket holds the pairs of the contents that hash to it. -/
theorem filter_flatten (ht : Table u bs) {b : Nat} {l : List (Stored δ)} (hl : bs[b]? = some l) :
    (bs.flatten.filter fun x => u.bucket x.key = b).Perm l := by
  have hin : (l.filter fun x => u.bucket x.key = b) = l :=
    List.filter_eq_self.mpr fun x hx => by simpa using ht.placed b l hl x hx
  have hout : ((others bs b).filter fun x => u.bucket x.key = b) = [] := by
    refine List.filter_eq_nil_iff.mpr fun x hx => ?_
    obtain ⟨m, hm, hxm⟩ := List.mem_flatten.mp hx
    obtain ⟨c, hcb, hc⟩ := List.mem_eraseIdx_iff_getElem?.mp hm
    simpa [ht.placed c m hc x hxm] using hcb
  have hperm := (flatten_perm hl).filter fun x => decide (u.bucket x.key = b)
  rwa [List.filter_append, hin, hout, List.append_nil] at hperm

/-- The table after the bucket `b` was replaced. -/
theorem set (ht : Table u bs) {b : Nat} {l : List (Stored δ)}
    (hl : ∀ x ∈ l, u.bucket x.key = b) : Table u (bs.set b l) := by
  refine ⟨by simpa using ht.length, fun c m hm x hx => ?_⟩
  rw [List.getElem?_set] at hm
  split at hm
  · rename_i hbc
    subst hbc
    split at hm
    · cases hm
      exact hl x hx
    · cases hm
  · exact ht.placed c m hm x hx

/-- A new pair in front of its bucket is found first. -/
theorem find_set_cons (ht : Table u bs) (hu : u.tableSize ≠ 0) {x : Stored δ} {k : Key}
    {l : List (Stored δ)} (hl : bs[u.bucket x.key]? = some l)
    (hok : u.hashFunc.Respects u.keyCmp (keysWith (x :: bs.flatten) k)) :
    u.keyCmp.find (bs.set (u.bucket x.key) (x :: l)).flatten k =
      u.keyCmp.find (x :: bs.flatten) k := by
  have hperm := flatten_set_perm hl (x :: l)
  have hsub : ∀ y ∈ (bs.set (u.bucket x.key) (x :: l)).flatten, y ∈ x :: bs.flatten := by
    intro y hy
    have hy' := hperm.mem_iff.mp hy
    rw [List.cons_append, List.mem_cons, ← (flatten_perm hl).mem_iff] at hy'
    exact List.mem_cons.mpr hy'
  have hok₁ : u.hashFunc.Respects u.keyCmp
      (keysWith (bs.set (u.bucket x.key) (x :: l)).flatten k) := fun q q' hq hq' =>
    hok q q' (keysWith_mono (fun y hy => ⟨y, hsub y hy, rfl⟩) hq)
      (keysWith_mono (fun y hy => ⟨y, hsub y hy, rfl⟩) hq')
  have hok₂ : u.hashFunc.Respects u.keyCmp (keysWith bs.flatten k) := fun q q' hq hq' =>
    hok q q' (keysWith_mono (fun y hy => ⟨y, List.mem_cons_of_mem _ hy, rfl⟩) hq)
      (keysWith_mono (fun y hy => ⟨y, List.mem_cons_of_mem _ hy, rfl⟩) hq')
  have hlt : u.bucket x.key < bs.length := (List.getElem?_eq_some_iff.mp hl).1
  have hplaced : ∀ y ∈ x :: l, u.bucket y.key = u.bucket x.key := by
    intro y hy
    rcases List.mem_cons.mp hy with rfl | hy
    · rfl
    · exact ht.placed _ l hl y hy
  have ht' : Table u (bs.set (u.bucket x.key) (x :: l)) := ht.set hplaced
  obtain ⟨m, hm⟩ := ht.exists_bucket hu k
  by_cases hb : u.bucket k = u.bucket x.key
  · have hml : m = l := Option.some_inj.mp (hm.symm.trans (hb ▸ hl))
    subst hml
    rw [ht'.find_flatten hok₁ (l := x :: m) (by simp [hb, hlt]), KeyCmp.find_cons, KeyCmp.find_cons,
      ht.find_flatten hok₂ hm]
  · have hne : ¬ u.keyCmp.same k x.key := fun hs => hb (by
      rw [UserSettings.bucket, UserSettings.bucket,
        hok k x.key keysWith_self (keysWith_mem List.mem_cons_self) hs])
    rw [ht'.find_flatten hok₁ (l := m) (by rw [List.getElem?_set_ne (Ne.symm hb), hm]),
      KeyCmp.find_cons, if_neg hne, ht.find_flatten hok₂ hm]

end Table

end Hashish
