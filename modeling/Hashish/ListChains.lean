import Hashish.Contents
import Hashish.Lib.Chain
import Hashish.ListEngine

/-!
# Chained buckets in memory

`ListRep h w os` says that the handle `h` links the buckets `os` of a list engine.
The walk over a bucket, taking an object out of its chain and moving an object
to the front are computed on this representation.

* `runs_seekBucket`: a walk finds the first object that passes the test.
* `ListRep.update`: a changed bucket, with its counter, keeps the representation.
-/

namespace Hashish

open Hashish.Lib

variable {δ : Type} {E : Fault → Prop} {w w' : World}

/-- A stored pair with the address of its list object and the second hash value found there. -/
structure Obj (δ : Type) extends Stored δ where
  self : Ptr
  keyHash : UInt32

/-- The list objects show `Obj`s. -/
def objLinkage (δ : Type) : Linkage Ptr (HiBucketHlObj δ) (Obj δ) where
  self := Obj.self
  next := HiBucketHlObj.next
  shows o x := o.toEntry = x.entry ∧ o.keyHash = x.keyHash

/-- The contents of chained buckets. -/
def contents (os : List (List (Obj δ))) : List (List (Stored δ)) := os.map (·.map Obj.toStored)

/-- The handle links the chained buckets `os`, and counts their objects. -/
structure ListRep (h : HiHandle δ) (w : World) (os : List (List (Obj δ))) : Prop where
  table : Table h.toUserSettings (contents os)
  tableAddr : h.bucketTable.addr ≠ none
  tableLength : h.bucketTable.cells.length = os.length
  chains : ∀ (b : Nat) (l : List (Obj δ)), os[b]? = some l →
    ∃ p, h.bucketTable.cells[b]? = some p ∧ (objLinkage δ).Chain h.objs p l none
  sizeAddr : h.bucketSize.addr ≠ none
  sizes : h.bucketSize.cells = os.map fun l => UInt32.ofNat l.length
  count : h.noObjects = UInt32.ofNat os.flatten.length
  distinct : (os.flatten.map Obj.self).Nodup
  fresh : ∀ x ∈ os.flatten, x.self < w.requests

/-- The blocks of a list object: its key and itself. -/
def Obj.blocks (x : Obj δ) : List Ptr := [x.keyAddr, x.self]

/-- The blocks of a handle with chained buckets. -/
def listBlocks (h : HiHandle δ) (os : List (List (Obj δ))) : List Ptr :=
  os.flatten.flatMap Obj.blocks ++ (h.bucketTable.addr.toList ++ h.baseBlocks)

/-! ## Walks -/

/-- The trailing pointer of a walk that has passed `l` and stands at `x`. -/
def trail (l : List (Obj δ)) (x : Obj δ) : Option Ptr :=
  match l.getLast? with
  | none => some x.self
  | some y => some y.self

/-- A walk finds the first object that passes the test. -/
theorem runs_seek {objs : Heap (HiBucketHlObj δ)} {hit : HiBucketHlObj δ → Bool}
    {test : Obj δ → Bool} {fuel : Nat} {p cur : Option Ptr} {l : List (Obj δ)}
    {Q : Option (Option Ptr × Ptr) → World → Prop}
    (hhit : ∀ o x, (objLinkage δ).shows o x → hit o = test x)
    (hc : (objLinkage δ).Chain objs cur l none) (hf : l.length < fuel)
    (hnone : (∀ x ∈ l, test x = false) → Q none w)
    (hsome : ∀ l₁ x l₂, l = l₁ ++ x :: l₂ → (∀ y ∈ l₁, test y = false) → test x = true →
      Q (some (((l₁.getLast?.map Obj.self).map some).getD p, x.self)) w) :
    Runs E (seek objs hit fuel p cur) w Q := by
  induction l generalizing fuel p cur with
  | nil =>
    obtain ⟨fuel, rfl⟩ : ∃ m, fuel = m + 1 := ⟨fuel - 1, by simp at hf; omega⟩
    cases hc
    exact hnone (by simp)
  | cons x l ih =>
    obtain ⟨fuel, rfl⟩ : ∃ m, fuel = m + 1 := ⟨fuel - 1, by simp at hf; omega⟩
    obtain ⟨rfl, o, ho, hs, hl⟩ := hc
    rw [seek]
    refine runs_bind.mpr (runs_deref ho ?_)
    rw [hhit o x hs]
    cases hx : test x with
    | true => exact hsome [] x l rfl (by simp) hx
    | false =>
      simp only [Bool.false_eq_true, if_false]
      refine ih hl (by simpa using hf) (fun hn => hnone ?_) fun l₁ y l₂ hl hn hy => ?_
      · intro y hy
        rcases List.mem_cons.mp hy with rfl | hy
        · exact hx
        · exact hn y hy
      · have hfound := hsome (x :: l₁) y l₂ (by rw [hl]; rfl) (by
          intro z hz
          rcases List.mem_cons.mp hz with rfl | hz
          · exact hx
          · exact hn z hz) hy
        cases hlast : l₁.getLast? with
        | none =>
          rw [List.getLast?_eq_none_iff] at hlast
          subst hlast
          simpa [objLinkage] using hfound
        | some z =>
          rw [List.getLast?_cons, hlast] at hfound
          simpa using hfound

namespace ListRep

variable {h h' : HiHandle δ} {os : List (List (Obj δ))} {b : Nat} {l : List (Obj δ)}

theorem of_requests (hr : ListRep h w os) (hw : w.requests ≤ w'.requests) : ListRep h w' os :=
  { hr with fresh := fun x hx => Nat.lt_of_lt_of_le (hr.fresh x hx) hw }

theorem mono (hr : ListRep h w os) (hw : w ≤ w') : ListRep h w' os := hr.of_requests hw.requests

theorem lt (hr : ListRep h w os) (hb : os[b]? = some l) : b < h.bucketTable.cells.length := by
  rw [hr.tableLength]
  exact (List.getElem?_eq_some_iff.mp hb).1

/-- The addresses of a bucket do not repeat, and do not occur in other buckets. -/
theorem distinct_bucket (hr : ListRep h w os) (hb : os[b]? = some l) :
    (l.map Obj.self).Nodup ∧ ((others os b).map Obj.self).Nodup ∧
      ∀ x ∈ l, ∀ y ∈ others os b, x.self ≠ y.self := by
  have hnd := (((flatten_perm hb).map Obj.self).nodup_iff).mp hr.distinct
  rw [List.map_append, List.nodup_append] at hnd
  refine ⟨hnd.1, hnd.2.1, fun x hx y hy => ?_⟩
  exact hnd.2.2 _ (List.mem_map_of_mem hx) _ (List.mem_map_of_mem hy)

theorem length_le (hr : ListRep h w os) (hb : os[b]? = some l) : l.length ≤ w.requests := by
  have hnd := (hr.distinct_bucket hb).1
  have hlt : ∀ p ∈ l.map Obj.self, p ∈ List.range w.requests := by
    intro p hp
    obtain ⟨x, hx, rfl⟩ := List.mem_map.mp hp
    exact List.mem_range.mpr (hr.fresh x ((flatten_perm hb).mem_iff.mpr (by simp [hx])))
  simpa using (List.subperm_of_subset hnd hlt).length_le

/-- The walk over a bucket. -/
theorem runs_seekBucket {hit : HiBucketHlObj δ → Bool} {test : Obj δ → Bool}
    {Q : Option (Option Ptr × Ptr) → World → Prop} (hr : ListRep h w os) (hb : os[b]? = some l)
    (hhit : ∀ o x, (objLinkage δ).shows o x → hit o = test x)
    (hnone : (∀ x ∈ l, test x = false) → Q none w)
    (hsome : ∀ l₁ x l₂, l = l₁ ++ x :: l₂ → (∀ y ∈ l₁, test y = false) → test x = true →
      Q (some (trail l₁ x, x.self)) w) :
    Runs E (h.seekBucket b hit) w Q := by
  obtain ⟨p, hp, hc⟩ := hr.chains b l hb
  simp only [HiHandle.seekBucket, runs_bind]
  refine Block.runs_load hr.tableAddr hp ?_
  rw [runs_walkBound]
  refine runs_seek hhit hc (Nat.lt_succ_of_le (hr.length_le hb)) hnone ?_
  intro l₁ x l₂ hl hn hx
  have := hsome l₁ x l₂ hl hn hx
  unfold trail at this
  cases hlast : l₁.getLast? with
  | some y =>
    rw [hlast] at this
    simpa [hlast] using this
  | none =>
    rw [hlast] at this
    rw [List.getLast?_eq_none_iff] at hlast
    subst hlast
    subst hl
    simpa [hc.1, objLinkage] using this

/-- A handle that differs in the bucket `b` only: its chain, its counter and the total. -/
theorem update (hr : ListRep h w os) (hb : os[b]? = some l) {l' : List (Obj δ)} {p : Option Ptr}
    (hu : h'.toUserSettings = h.toUserSettings)
    (hcells : h'.bucketTable.cells = h.bucketTable.cells.set b p)
    (haddr : h'.bucketTable.addr = h.bucketTable.addr)
    (hchain : (objLinkage δ).Chain h'.objs p l' none)
    (hframe : ∀ y ∈ others os b, h'.objs y.self = h.objs y.self)
    (hsizes : h'.bucketSize.cells = h.bucketSize.cells.set b (UInt32.ofNat l'.length))
    (hsaddr : h'.bucketSize.addr = h.bucketSize.addr)
    (hcount : h'.noObjects = UInt32.ofNat (l'.length + (others os b).length))
    (hplaced : ∀ x ∈ l', h.toUserSettings.bucket x.key = b)
    (hnd : (l'.map Obj.self).Nodup) (hdisj : ∀ x ∈ l', ∀ y ∈ others os b, x.self ≠ y.self)
    (hfresh : ∀ x ∈ l', x.self < w'.requests) (hw : w ≤ w') : ListRep h' w' (os.set b l') := by
  have hperm := flatten_set_perm hb l'
  have hlt := hr.lt hb
  refine ⟨?_, haddr ▸ hr.tableAddr, by simp [hcells, hr.tableLength], ?_, hsaddr ▸ hr.sizeAddr, ?_,
    ?_, ?_, ?_⟩
  · rw [hu, contents, List.map_set]
    refine hr.table.set fun x hx => ?_
    obtain ⟨y, hy, rfl⟩ := List.mem_map.mp hx
    exact hplaced y hy
  · intro c m hm
    rw [hcells]
    rw [List.getElem?_set] at hm ⊢
    split at hm
    · rename_i hbc
      subst hbc
      split at hm
      · cases hm
        exact ⟨p, by simp [hlt], hchain⟩
      · cases hm
    · rename_i hbc
      obtain ⟨q, hq, hc⟩ := hr.chains c m hm
      rw [if_neg hbc]
      exact ⟨q, hq, hc.congr fun y hy => hframe y (mem_others hm (Ne.symm hbc) hy)⟩
  · rw [hsizes, hr.sizes, List.map_set]
  · rw [hcount, hperm.length_eq, List.length_append]
  · rw [(hperm.map Obj.self).nodup_iff, List.map_append, List.nodup_append]
    refine ⟨hnd, (hr.distinct_bucket hb).2.1, ?_⟩
    intro q hq q' hq'
    obtain ⟨x, hx, rfl⟩ := List.mem_map.mp hq
    obtain ⟨y, hy, rfl⟩ := List.mem_map.mp hq'
    exact hdisj x hx y hy
  · intro x hx
    rcases List.mem_append.mp (hperm.mem_iff.mp hx) with hx | hx
    · exact hfresh x hx
    · exact Nat.lt_of_lt_of_le
        (hr.fresh x ((flatten_perm hb).mem_iff.mpr (List.mem_append_right _ hx))) hw.requests

/-! ## Changing a chain -/

/-- An object is taken out of a chain by letting its predecessor point to the rest. -/
theorem chain_unlink {objs : Heap (HiBucketHlObj δ)} {p : Option Ptr} {l₁ l₂ : List (Obj δ)}
    {x y : Obj δ} {o : HiBucketHlObj δ}
    (hc : (objLinkage δ).Chain objs p (l₁ ++ y :: x :: l₂) none)
    (hnd : ((l₁ ++ y :: x :: l₂).map Obj.self).Nodup) (ho : objs x.self = some o) :
    ∃ oy, objs y.self = some oy ∧ (objLinkage δ).Chain
      (objs.set y.self (some { oy with next := o.next })) p (l₁ ++ y :: l₂) none := by
  obtain ⟨m, h₁, hm, oy, hoy, hsy, hx, o', ho', hsx, h₂⟩ := Linkage.chain_append.mp hc
  have hoo : o' = o := Option.some_inj.mp (ho'.symm.trans ho)
  subst hoo
  simp only [List.map_append, List.map_cons, List.nodup_append, List.nodup_cons, List.mem_cons,
    List.mem_map] at hnd
  obtain ⟨hnd₁, ⟨hy, hx', hnd₂⟩, hdisj⟩ := hnd
  have hne₁ : ∀ z ∈ l₁, z.self ≠ y.self := fun z hz => hdisj _ ⟨z, hz, rfl⟩ _ (.inl rfl)
  have hne₂ : ∀ z ∈ l₂, z.self ≠ y.self := fun z hz he => hy (.inr ⟨z, hz, he⟩)
  refine ⟨oy, hoy, Linkage.chain_append.mpr ⟨m, ?_, hm, _, Heap.set_same _ _ _, hsy, ?_⟩⟩
  · exact h₁.congr fun z hz => Heap.set_other _ _ (hne₁ z hz)
  · exact h₂.congr fun z hz => Heap.set_other _ _ (hne₂ z hz)

theorem trail_concat (l : List (Obj δ)) (x y : Obj δ) : trail (l ++ [y]) x = some y.self := by
  simp [trail]

/-- Taking the object `x` out of its chain: it is the first object, or it has a predecessor. -/
theorem runs_unlinkObj {Q : HiHandle δ → World → Prop} {l₁ l₂ : List (Obj δ)} {x : Obj δ}
    {o : HiBucketHlObj δ} (hr : ListRep h w os) (hb : os[b]? = some (l₁ ++ x :: l₂))
    (ho : h.objs x.self = some o)
    (hQ : ∀ objs p, (objLinkage δ).Chain objs p (l₁ ++ l₂) none →
      (∀ q, q ∉ l₁.map Obj.self → objs q = h.objs q) →
      Q { h with
        objs := objs
        bucketTable := { h.bucketTable with cells := h.bucketTable.cells.set b p } } w) :
    Runs E (h.unlinkObj b (trail l₁ x) x.self o.next) w Q := by
  obtain ⟨p, hp, hc⟩ := hr.chains b _ hb
  have hnd := (hr.distinct_bucket hb).1
  unfold HiHandle.unlinkObj
  rcases List.eq_nil_or_concat l₁ with rfl | ⟨l₀, y, rfl⟩
  · obtain ⟨-, o', ho', -, hl⟩ := hc
    have hoo : o' = o := Option.some_inj.mp (ho'.symm.trans ho)
    subst hoo
    rw [if_pos (show trail [] x = some x.self from rfl)]
    refine runs_bind.mpr (Block.runs_store hr.tableAddr (hr.lt hb) ?_)
    exact hQ h.objs o'.next hl fun q _ => rfl
  · have hyx : y.self ≠ x.self := by
      simp [List.nodup_append] at hnd
      grind
    rw [List.concat_eq_append] at hc hnd hQ ⊢
    rw [trail_concat, if_neg fun he => hyx (Option.some_inj.mp he)]
    simp only [List.append_assoc, List.singleton_append] at hc hnd hQ
    obtain ⟨oy, hoy, hc'⟩ := chain_unlink hc hnd ho
    refine runs_bind.mpr (runs_assign hoy ?_)
    have := hQ _ p hc' fun q hq => Heap.set_other _ _ fun he => hq (by simp [he])
    rwa [set_self hp] at this

/-- Moving the object `x` with the predecessor `y` to the front. -/
theorem runs_moveToFront {Q : HiHandle δ → World → Prop} {l₁ l₂ : List (Obj δ)} {x y : Obj δ}
    {o : HiBucketHlObj δ} (hr : ListRep h w os) (hb : os[b]? = some (l₁ ++ y :: x :: l₂))
    (ho : h.objs x.self = some o)
    (hQ : ∀ objs, (objLinkage δ).Chain objs (some x.self) (x :: (l₁ ++ y :: l₂)) none →
      (∀ q, q ∉ (l₁ ++ y :: x :: l₂).map Obj.self → objs q = h.objs q) →
      Q { h with
        objs := objs
        bucketTable :=
          { h.bucketTable with cells := h.bucketTable.cells.set b (some x.self) } } w) :
    Runs E (h.moveToFront b (some y.self) x.self o.next) w Q := by
  obtain ⟨p, hp, hc⟩ := hr.chains b _ hb
  have hnd := (hr.distinct_bucket hb).1
  obtain ⟨oy, hoy, hc'⟩ := chain_unlink hc hnd ho
  have hsx : (objLinkage δ).shows o x := by
    obtain ⟨m, h₁, hm, oy', hoy', hsy, hx, o', ho', hsx, h₂⟩ := Linkage.chain_append.mp hc
    have hoo : o' = o := Option.some_inj.mp (ho'.symm.trans ho)
    exact hoo ▸ hsx
  have hne : ∀ z ∈ l₁ ++ y :: l₂, z.self ≠ x.self := by
    simp only [List.map_append, List.map_cons, List.nodup_append, List.nodup_cons, List.mem_cons,
      List.mem_map] at hnd
    intro z hz
    rcases List.mem_append.mp hz with hz | hz
    · exact hnd.2.2 _ ⟨z, hz, rfl⟩ _ (.inr (.inl rfl))
    · rcases List.mem_cons.mp hz with rfl | hz
      · exact fun he => hnd.2.1.1 (.inl he)
      · exact fun he => hnd.2.1.2.1 ⟨z, hz, he⟩
  have hox : (h.objs.set y.self (some { oy with next := o.next })) x.self = some o :=
    (Heap.set_other _ _ (Ne.symm (hne y (by simp)))).trans ho
  unfold HiHandle.moveToFront
  refine runs_bind.mpr (runs_assign hoy ?_)
  refine runs_bind.mpr (Block.runs_load hr.tableAddr hp ?_)
  refine runs_bind.mpr (runs_assign hox ?_)
  refine runs_bind.mpr (Block.runs_store hr.tableAddr (hr.lt hb) ?_)
  refine hQ _ ⟨rfl, _, Heap.set_same _ _ _, hsx, ?_⟩ ?_
  · exact hc'.congr fun z hz => Heap.set_other _ _ (hne z hz)
  · intro q hq
    have hqx : q ≠ x.self := fun he => hq (by simp [he])
    have hqy : q ≠ y.self := fun he => hq (by simp [he])
    rw [Heap.set_other _ _ hqx, Heap.set_other _ _ hqy]

end ListRep

end Hashish
