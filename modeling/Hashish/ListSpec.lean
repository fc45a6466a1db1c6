import Hashish.ListChains
import Hashish.Operations
import Hashish.Snapshots

/-!
# What the list engines do

The operations on one bucket, for any test of the walk that looks at the key and
the second hash value only:

* `runs_removeHit`, `runs_getHit`, `runs_getHitMtf`: the first object that passes
  the test is taken out, returned, moved to the front.
* `runs_lhiInsertList`: a new object in front, or an unchanged handle.
* `runs_lhiListBucketToArray`: the snapshot of a bucket, as long as its counter
  did not wrap.
* `runs_lhiFiniList`, `runs_lhiCreateEngList`: the end and the start of a table.
-/

namespace Hashish

open Hashish.Lib

variable {δ : Type} {E : Fault → Prop} {w : World} {h : HiHandle δ} {os : List (List (Obj δ))}
  {b : Nat} {l : List (Obj δ)} {hit : HiBucketHlObj δ → Bool} {test : Obj δ → Bool}

namespace ListRep

/-- The object of a member of a bucket. -/
theorem obj_of_mem (hr : ListRep h w os) (hb : os[b]? = some l) {x : Obj δ} (hx : x ∈ l) :
    ∃ o, h.objs x.self = some o ∧ (objLinkage δ).shows o x := by
  obtain ⟨p, hp, hc⟩ := hr.chains b l hb
  obtain ⟨l₁, l₂, rfl⟩ := List.append_of_mem hx
  obtain ⟨m, h₁, hm, o, ho, hs, h₂⟩ := Linkage.chain_append.mp hc
  exact ⟨o, ho, hs⟩

theorem size_of_bucket (hr : ListRep h w os) (hb : os[b]? = some l) :
    h.bucketSize.cells[b]? = some (UInt32.ofNat l.length) := by
  rw [hr.sizes, List.getElem?_map, hb]
  rfl

theorem count_eq (hr : ListRep h w os) (hb : os[b]? = some l) :
    h.noObjects = UInt32.ofNat (l.length + (others os b).length) := by
  rw [hr.count, (flatten_perm hb).length_eq, List.length_append]

theorem placed (hr : ListRep h w os) (hb : os[b]? = some l) {x : Obj δ} (hx : x ∈ l) :
    h.toUserSettings.bucket x.key = b :=
  hr.table.placed b (l.map Obj.toStored) (by simp [contents, hb]) x.toStored
    (List.mem_map_of_mem hx)

/-- The blocks of a handle with the objects `xs`, and of one that is left without them. -/
theorem listBlocks_perm {h' : HiHandle δ} {os' : List (List (Obj δ))} {xs : List (Obj δ)}
    (hp : os.flatten.Perm (xs ++ os'.flatten)) (ht : h'.bucketTable.addr = h.bucketTable.addr)
    (hbase : h'.baseBlocks = h.baseBlocks) :
    (listBlocks h os).Perm (xs.flatMap Obj.blocks ++ listBlocks h' os') := by
  rw [listBlocks, listBlocks, ht, hbase, ← List.append_assoc (xs.flatMap _), ← List.flatMap_append]
  exact (hp.flatMap_right _).append_right _

/-! ## Removal -/

theorem runs_removeHit {Q : Result δ × HiHandle δ → World → Prop} (hr : ListRep h w os)
    (hb : os[b]? = some l) (hhit : ∀ o x, (objLinkage δ).shows o x → hit o = test x)
    (hnone : (∀ x ∈ l, test x = false) → ∀ w', w ≤ w' → w'.requests = w.requests →
      w'.moves = w.moves → Q (⟨hiErrNokey, none⟩, h) w')
    (hsome : ∀ l₁ x l₂ h' w', l = l₁ ++ x :: l₂ → (∀ y ∈ l₁, test y = false) → test x = true →
      ListRep h' w' (os.set b (l₁ ++ l₂)) → h'.toUserSettings = h.toUserSettings → w ≤ w' →
      w'.requests = w.requests →
      w.Books w' (listBlocks h os) (listBlocks h' (os.set b (l₁ ++ l₂))) →
      Q (⟨success, some x.data⟩, h') w') :
    Runs E (h.removeHit b hit) w Q := by
  unfold HiHandle.removeHit
  rw [runs_bind]
  refine hr.runs_seekBucket hb hhit ?_ ?_
  · intro hn
    simp only [runs_bind, runs_mutexUnlock, runs_pure]
    exact hnone hn _ (w.le_log _) rfl (by simp)
  · intro l₁ x l₂ hl hn hx
    subst hl
    have hxl : x ∈ l₁ ++ x :: l₂ := by simp
    obtain ⟨o, ho, hsx⟩ := hr.obj_of_mem hb hxl
    have hnd := hr.distinct_bucket hb
    have hxne : ∀ y ∈ l₁ ++ l₂, y.self ≠ x.self := by
      have := hnd.1
      simp only [List.map_append, List.map_cons, List.nodup_append, List.nodup_cons, List.mem_cons,
        List.mem_map] at this
      intro y hy he
      rcases List.mem_append.mp hy with hy | hy
      · exact this.2.2 _ ⟨y, hy, rfl⟩ _ (.inl rfl) he
      · exact this.2.1.1 ⟨y, hy, he⟩
    refine runs_bind.mpr (runs_deref ho ?_)
    refine runs_bind.mpr (hr.runs_unlinkObj hb ho fun objs p hchain hobjs => ?_)
    refine runs_bind.mpr (runs_free_moves fun w₁ hw₁ hreq₁ hm₁ => ?_)
    refine runs_bind.mpr (runs_free_moves fun w₂ hw₂ hreq₂ hm₂ => ?_)
    refine runs_bind.mpr (Block.runs_load hr.sizeAddr (hr.size_of_bucket hb) ?_)
    have hlen : b < h.bucketSize.cells.length := by
      rw [hr.sizes, List.length_map]
      exact (List.getElem?_eq_some_iff.mp hb).1
    refine runs_bind.mpr (Block.runs_store hr.sizeAddr hlen ?_)
    simp only [runs_bind, runs_mutexUnlock, runs_pure]
    have hw : w ≤ w₂.log (.unlock h.mutexLock) := hw₁.trans (hw₂.trans (w₂.le_log _))
    have hdata : o.data = x.data := congrArg Entry.data hsx.1
    rw [hdata]
    have hsub : ∀ y ∈ l₁ ++ l₂, y ∈ l₁ ++ x :: l₂ := by
      intro y hy
      rcases List.mem_append.mp hy with hy | hy <;> simp [hy]
    have hkey : o.key.addr = some x.keyAddr := congrArg (·.key.addr) hsx.1
    have hmoves : (w₂.log (.unlock h.mutexLock)).moves = w.moves ++ x.blocks.map .give := by
      rw [hkey] at hm₁
      simp [hm₂, hm₁, Obj.blocks]
    have hperm : os.flatten.Perm ([x] ++ (os.set b (l₁ ++ l₂)).flatten) :=
      ((flatten_perm hb).trans (List.perm_middle.append_right _)).trans
        ((flatten_set_perm hb (l₁ ++ l₂)).symm.cons x)
    refine hsome l₁ x l₂ _ _ rfl hn hx ?_ rfl hw (hreq₂.trans hreq₁)
      (.gives hmoves (listBlocks_perm hperm rfl rfl))
    refine hr.update (p := p) hb rfl rfl rfl ?_ ?_ ?_ rfl ?_ ?_ ?_ ?_ ?_ hw
    · exact hchain.congr fun y hy => Heap.set_other _ _ (hxne y hy)
    · intro y hy
      have hyx : y.self ≠ x.self := fun he => hnd.2.2 x hxl y hy he.symm
      refine (Heap.set_other _ _ hyx).trans (hobjs _ fun hm => ?_)
      obtain ⟨z, hz, he⟩ := List.mem_map.mp hm
      exact hnd.2.2 z (by simp [hz]) y hy he
    · show _ = h.bucketSize.cells.set b _
      have : (l₁ ++ x :: l₂).length = (l₁ ++ l₂).length + 1 := by simp; omega
      rw [this, ofNat_pred]
    · show h.noObjects - 1 = _
      have : (l₁ ++ x :: l₂).length + (others os b).length =
          (l₁ ++ l₂).length + (others os b).length + 1 := by simp; omega
      rw [hr.count_eq hb, this, ofNat_pred]
    · exact fun y hy => hr.placed hb (hsub y hy)
    · exact hnd.1.sublist ((List.sublist_cons_self x l₂).append_left l₁ |>.map _)
    · exact fun y hy => hnd.2.2 y (hsub y hy)
    · intro y hy
      refine Nat.lt_of_lt_of_le (hr.fresh y ?_) hw.requests
      exact (flatten_perm hb).mem_iff.mpr (List.mem_append_left _ (hsub y hy))

/-! ## Retrieval -/

theorem runs_getHit {Q : Result δ → World → Prop} (hr : ListRep h w os)
    (hb : os[b]? = some l) (hhit : ∀ o x, (objLinkage δ).shows o x → hit o = test x)
    (hnone : (∀ x ∈ l, test x = false) → ∀ w', w ≤ w' → w'.requests = w.requests →
      w'.moves = w.moves → Q ⟨hiErrNokey, none⟩ w')
    (hsome : ∀ l₁ x l₂ w', l = l₁ ++ x :: l₂ → (∀ y ∈ l₁, test y = false) → test x = true →
      w ≤ w' → w'.requests = w.requests → w'.moves = w.moves → Q ⟨success, some x.data⟩ w') :
    Runs E (h.getHit b hit) w Q := by
  unfold HiHandle.getHit
  rw [runs_bind]
  refine hr.runs_seekBucket hb hhit ?_ ?_
  · intro hn
    simp only [runs_bind, runs_mutexUnlock, runs_pure]
    exact hnone hn _ (w.le_log _) rfl (by simp)
  · intro l₁ x l₂ hl hn hx
    obtain ⟨o, ho, hsx⟩ := hr.obj_of_mem hb (x := x) (by simp [hl])
    refine runs_bind.mpr (runs_deref ho ?_)
    simp only [runs_bind, runs_mutexUnlock, runs_pure]
    rw [show o.data = x.data from congrArg Entry.data hsx.1]
    exact hsome l₁ x l₂ _ hl hn hx (w.le_log _) rfl (by simp)

theorem runs_getHitMtf {Q : Result δ × HiHandle δ → World → Prop} (hr : ListRep h w os)
    (hb : os[b]? = some l) (hhit : ∀ o x, (objLinkage δ).shows o x → hit o = test x)
    (hnone : (∀ x ∈ l, test x = false) → ∀ w', w ≤ w' → w'.requests = w.requests →
      w'.moves = w.moves → Q (⟨hiErrNokey, none⟩, h) w')
    (hsome : ∀ l₁ x l₂ h' w', l = l₁ ++ x :: l₂ → (∀ y ∈ l₁, test y = false) → test x = true →
      ListRep h' w' (os.set b (x :: (l₁ ++ l₂))) → h'.toUserSettings = h.toUserSettings → w ≤ w' →
      w'.requests = w.requests →
      w.Books w' (listBlocks h os) (listBlocks h' (os.set b (x :: (l₁ ++ l₂)))) →
      Q (⟨success, some x.data⟩, h') w') :
    Runs E (h.getHitMtf b hit) w Q := by
  unfold HiHandle.getHitMtf
  rw [runs_bind]
  refine hr.runs_seekBucket hb hhit ?_ ?_
  · intro hn
    simp only [runs_bind, runs_mutexUnlock, runs_pure]
    exact hnone hn _ (w.le_log _) rfl (by simp)
  · intro l₁ x l₂ hl hn hx
    subst hl
    have hxl : x ∈ l₁ ++ x :: l₂ := by simp
    obtain ⟨o, ho, hsx⟩ := hr.obj_of_mem hb hxl
    have hnd := hr.distinct_bucket hb
    refine runs_bind.mpr (runs_deref ho ?_)
    have hdata : o.data = x.data := congrArg Entry.data hsx.1
    rcases List.eq_nil_or_concat l₁ with rfl | ⟨l₀, y, rfl⟩
    · rw [if_neg (by simp [trail])]
      simp only [runs_bind, runs_pure, runs_mutexUnlock, hdata]
      have hset : os.set b (x :: ([] ++ l₂)) = os := set_self hb
      refine hsome [] x l₂ h _ rfl hn hx ?_ rfl (w.le_log _) rfl ?_
      · rw [hset]
        exact hr.mono (w.le_log _)
      · rw [hset]
        exact .of_perm (by simp) (.refl _)
    · rw [List.concat_eq_append] at *
      have hyx : y.self ≠ x.self := by
        have := hnd.1
        simp [List.nodup_append] at this
        grind
      rw [trail_concat, if_pos fun he => hyx (Option.some_inj.mp he)]
      have hb' : os[b]? = some (l₀ ++ y :: x :: l₂) := by simpa using hb
      have hperm : (x :: ((l₀ ++ [y]) ++ l₂)).Perm ((l₀ ++ [y]) ++ x :: l₂) :=
        List.perm_middle.symm
      refine runs_bind.mpr (hr.runs_moveToFront hb' ho fun objs hchain hobjs => ?_)
      simp only [runs_bind, runs_mutexUnlock, runs_pure, hdata]
      have hw : w ≤ w.log (.unlock h.mutexLock) := w.le_log _
      have hall : os.flatten.Perm ([] ++ (os.set b (x :: ((l₀ ++ [y]) ++ l₂))).flatten) :=
        ((flatten_perm hb).trans (hperm.symm.append_right _)).trans (flatten_set_perm hb _).symm
      refine hsome (l₀ ++ [y]) x l₂ _ _ rfl hn hx ?_ rfl hw rfl
        (.of_perm (by simp) (listBlocks_perm hall rfl rfl))
      refine hr.update (p := some x.self) hb rfl rfl rfl ?_ ?_ ?_ rfl ?_ ?_ ?_ ?_ ?_ hw
      · simpa using hchain
      · intro z hz
        refine hobjs _ fun hm => ?_
        obtain ⟨z', hz', he⟩ := List.mem_map.mp hm
        exact hnd.2.2 z' (by simpa using hz') z hz he
      · show h.bucketSize.cells = _
        rw [hperm.length_eq, set_self (hr.size_of_bucket hb)]
      · show h.noObjects = _
        rw [hperm.length_eq, hr.count_eq hb]
      · exact fun z hz => hr.placed hb (hperm.mem_iff.mp hz)
      · exact ((hperm.map Obj.self).nodup_iff).mpr hnd.1
      · exact fun z hz => hnd.2.2 z (hperm.mem_iff.mp hz)
      · intro z hz
        refine Nat.lt_of_lt_of_le (hr.fresh z ?_) hw.requests
        exact (flatten_perm hb).mem_iff.mpr (List.mem_append_left _ (hperm.mem_iff.mp hz))

/-! ## Insertion -/

/-- A new object in front of the bucket of its key. The second hash value of the object is the
word that was in the fresh block. -/
theorem runs_lhiInsertList {Q : Int × HiHandle δ → World → Prop} {k : Key} {d : δ}
    (hr : ListRep h w os) (hu : h.tableSize ≠ 0) (hb : os[h.toUserSettings.bucket k]? = some l)
    (hfail : ∀ ret n w', 0 < ret → w ≤ w' → n < 2 → w.Refused n w' → Q (ret, h) w')
    (hok : ∀ x h' w' junk, x.key = k → x.data = d → w.replies w.requests = .block junk →
      x.keyHash = junk 0 → ListRep h' w' (os.set (h.toUserSettings.bucket k) (x :: l)) →
      h'.toUserSettings = h.toUserSettings → w ≤ w' → w.Served 2 w' →
      w.Books w' (listBlocks h os) (listBlocks h' (os.set (h.toUserSettings.bucket k) (x :: l))) →
      Q (success, h') w') :
    Runs E (lhiInsertList h k.bytes k.keylen d) w Q := by
  unfold lhiInsertList
  simp only [runs_bind, runs_mutexLock, runs_bucketOf hu]
  have hlog : w ≤ w.log (.lock h.mutexLock) := w.le_log _
  refine runs_xallocAlign_refused ?_ ?_
  · intro ret w₁ hw₁ hs hret
    simp only [runs_bind, runs_mutexUnlock, runs_pure]
    exact hfail ret 0 _ hret (hlog.trans (hw₁.trans (w₁.le_log _))) (by decide)
      (hs.of_log.after rfl)
  intro junk w₁ hw₁ hreq₁ hjunk hm₁
  have hserved : w.Served 1 w₁ := .one hreq₁ hjunk
  rw [runs_bind]
  refine runs_xallocAlign_refused ?_ ?_
  · intro ret w₂ hw₂ hs hret
    refine runs_bind.mpr (runs_free fun w₃ hw₃ hreq₃ => ?_)
    simp only [runs_bind, runs_mutexUnlock, runs_pure]
    exact hfail ret 1 _ hret (hlog.trans (hw₁.trans (hw₂.trans (hw₃.trans (w₃.le_log _)))))
      (by decide) ((hserved.refused (hlog.trans hw₁) hs).after hreq₃)
  intro junk₂ w₂ hw₂ hreq₂ hjunk₂ hm₂
  obtain ⟨p, hp, hc⟩ := hr.chains _ l hb
  have hlen : h.toUserSettings.bucket k < h.bucketSize.cells.length := by
    rw [hr.sizes, List.length_map]
    exact (List.getElem?_eq_some_iff.mp hb).1
  refine runs_bind.mpr (runs_memcpy (by simp) ?_)
  refine runs_bind.mpr (Block.runs_load hr.tableAddr hp ?_)
  refine runs_bind.mpr (Block.runs_store hr.tableAddr (hr.lt hb) ?_)
  refine runs_bind.mpr (Block.runs_load hr.sizeAddr (hr.size_of_bucket hb) ?_)
  refine runs_bind.mpr (Block.runs_store hr.sizeAddr hlen ?_)
  simp only [runs_bind, runs_mutexUnlock, runs_pure, World.log_requests]
  have hw : w ≤ w₂.log (.unlock h.mutexLock) := hlog.trans (hw₁.trans (hw₂.trans (w₂.le_log _)))
  -- No object lies at the address of the new one.
  have hne : ∀ y ∈ os.flatten, y.self ≠ w.requests := fun y hy =>
    Nat.ne_of_lt (hr.fresh y hy)
  have hmem : ∀ y ∈ l ++ others os (h.toUserSettings.bucket k), y ∈ os.flatten := fun y hy =>
    (flatten_perm hb).mem_iff.mpr hy
  have hnd := hr.distinct_bucket hb
  let x : Obj δ := ⟨⟨k, d, w₁.requests⟩, w.requests, junk 0⟩
  refine hok x _ _ junk rfl rfl hjunk rfl ?_ rfl hw
    ((hserved.trans (hlog.trans hw₁) (.one hreq₂ hjunk₂)).after rfl) ?_
  swap
  · have htook : w.Books (w₂.log (.unlock h.mutexLock)) (listBlocks h os)
        (x.blocks ++ listBlocks h os) :=
      .trans (.take (by simpa using hm₁)) (.take (by simpa using hm₂))
    have hperm : (os.set (h.toUserSettings.bucket k) (x :: l)).flatten.Perm ([x] ++ os.flatten) :=
      (flatten_set_perm hb _).trans ((flatten_perm hb).symm.cons x)
    exact htook.perm (listBlocks_perm hperm rfl rfl).symm
  refine hr.update (p := some w.requests) hb rfl rfl rfl ?_ ?_ ?_ rfl ?_ ?_ ?_ ?_ ?_ hw
  · refine ⟨rfl, _, Heap.set_same _ _ _, ⟨rfl, rfl⟩, ?_⟩
    exact hc.congr fun y hy => Heap.set_other _ _ (hne y (hmem y (by simp [hy])))
  · exact fun y hy => Heap.set_other _ _ (hne y (hmem y (by simp [hy])))
  · show _ = h.bucketSize.cells.set _ _
    rw [List.length_cons, ofNat_succ]
  · show h.noObjects + 1 = _
    rw [hr.count_eq hb, ← ofNat_succ, List.length_cons, Nat.add_right_comm]
  · intro y hy
    rcases List.mem_cons.mp hy with rfl | hy
    · rfl
    · exact hr.placed hb hy
  · rw [List.map_cons, List.nodup_cons]
    refine ⟨fun hm => ?_, hnd.1⟩
    obtain ⟨y, hy, he⟩ := List.mem_map.mp hm
    exact hne y (hmem y (by simp [hy])) he
  · intro y hy z hz
    rcases List.mem_cons.mp hy with rfl | hy
    · exact (hne z (hmem z (by simp [hz]))).symm
    · exact hnd.2.2 y hy z hz
  · intro y hy
    rcases List.mem_cons.mp hy with rfl | hy
    · show w.requests < w₂.requests
      rw [hreq₂, hreq₁]
      simp only [World.log_requests]
      omega
    · exact Nat.lt_of_lt_of_le (hr.fresh y (hmem y (by simp [hy]))) hw.requests

/-! ## Snapshots -/

/-- The copy loop appends the chain to what was copied before. It runs over the end of arrays that
are too short. -/
theorem runs_copyChain {Q : BucketArray δ → World → Prop} {objs : Heap (HiBucketHlObj δ)}
    {fuel m : Nat} {cur : Option Ptr} {l : List (Obj δ)} {d : List (Stored δ)}
    {a : BucketArray δ} (hc : (objLinkage δ).Chain objs cur l none) (hf : l.length < fuel)
    (ha : a.Shows (d.map some ++ List.replicate m none))
    (hE : m < l.length → E .badAddress)
    (hQ : l.length ≤ m → ∀ a', a'.nmemb = a.nmemb →
      a'.Shows ((d ++ l.map Obj.toStored).map some ++ List.replicate (m - l.length) none) →
      Q a' w) :
    Runs E (copyChain objs fuel cur d.length a) w Q := by
  induction l generalizing fuel m cur d a with
  | nil =>
    obtain ⟨fuel, rfl⟩ : ∃ n, fuel = n + 1 := ⟨fuel - 1, by simp at hf; omega⟩
    cases hc
    exact hQ (Nat.zero_le m) a rfl (by simpa using ha)
  | cons x l ih =>
    obtain ⟨fuel, rfl⟩ : ∃ n, fuel = n + 1 := ⟨fuel - 1, by simp at hf; omega⟩
    obtain ⟨rfl, o, ho, hs, hl⟩ := hc
    rw [copyChain]
    refine runs_bind.mpr (runs_deref ho ?_)
    have hitem : (o.data, o.key, o.keyLen) =
        (x.toStored.item.data, x.toStored.item.key, x.toStored.item.keylen) := by
      simp [show o.toEntry = x.entry from hs.1, Stored.entry, Stored.item]
    simp only [Prod.mk.injEq] at hitem
    obtain ⟨hd, hk, hlen⟩ := hitem
    rw [hd, hk, hlen]
    cases m with
    | zero => exact runs_bind.mpr (ha.runs_put_outside (by simp) (hE (by simp)))
    | succ m =>
      refine runs_bind.mpr (ha.runs_put (by simp) fun a' ha' hn' => ?_)
      have hcells : (d.map some ++ List.replicate (m + 1) none).set d.length
          (some x.toStored) = (d ++ [x.toStored]).map some ++ List.replicate m none := by
        rw [List.set_append_right _ _ (by simp)]
        simp [List.replicate_succ]
      rw [hcells] at ha'
      have := ih (d := d ++ [x.toStored]) hl (by simpa using hf) ha'
        (fun hm => hE (by simpa using hm)) (fun hm a'' hn'' ha'' => hQ (by simpa using hm) a''
          (hn''.trans hn') (by simpa using ha''))
      rwa [List.length_append, List.length_singleton] at this

/-- The snapshot of a bucket whose counter is right. A bucket of `2 ^ 32` objects counts as empty,
and a counter that has wrapped otherwise lets the copy run over the end of the arrays. -/
theorem runs_lhiListBucketToArray {Q : Int × BucketArray δ → World → Prop} {a : BucketArray δ}
    (hr : ListRep h w os) (hb : os[b]? = some l)
    (heng : h.collEng = .list ∨ h.collEng = .listMtf ∨ h.collEng = .listHash ∨
      h.collEng = .listMtfHash)
    (hE : 2 ^ 32 ≤ l.length → l.length % 2 ^ 32 ≠ 0 → E .badAddress)
    (hempty : l.length % 2 ^ 32 = 0 → ∀ w', w ≤ w' → w'.requests = w.requests →
      Q (hiErrNodata, a) w')
    (hfail : ∀ m w', l.length % 2 ^ 32 ≠ 0 → w ≤ w' → m < 3 → w.Refused m w' →
      Q (hiErrSystem, a) w')
    (hok : l ≠ [] → l.length < 2 ^ 32 → ∀ a' w', w ≤ w' → w.Served 3 w' → a'.nmemb = l.length →
      a'.Shows ((l.map Obj.toStored).map some) → Q (0, a') w') :
    Runs E (lhiListBucketToArray h b a) w Q := by
  have hlt : ¬ h.tableSize.toNat < b := by
    have h₁ := hr.table.length
    have h₂ := (List.getElem?_eq_some_iff.mp hb).1
    simp only [contents, List.length_map] at h₁
    omega
  unfold lhiListBucketToArray
  rw [if_neg hlt]
  simp only [runs_bind, runs_mutexLock]
  refine Block.runs_load hr.sizeAddr (hr.size_of_bucket hb) ?_
  have hw₀ : w ≤ w.log (.lock h.mutexLock) := w.le_log _
  have hsize : (UInt32.ofNat l.length).toNat = l.length % 2 ^ 32 := UInt32.toNat_ofNat'
  by_cases hmod : l.length % 2 ^ 32 = 0
  · have hz : UInt32.ofNat l.length = 0 := UInt32.toNat_inj.mp (hsize.trans hmod)
    rw [if_pos hz]
    simp only [runs_bind, runs_mutexUnlock, runs_pure]
    exact hempty hmod _ (hw₀.trans (World.le_log _ _)) rfl
  · have hz : UInt32.ofNat l.length ≠ 0 := fun hz => hmod (by rw [← hsize, hz]; rfl)
    rw [if_neg hz, hsize, runs_bind]
    refine runs_lhiBucketArrayAlloc hmod (Nat.mod_lt _ (by decide)) ?_ ?_
    · intro m w₁ hw₁ hm hs
      rw [if_pos (show hiErrSystem ≠ 0 by decide)]
      simp only [runs_bind, runs_mutexUnlock, runs_pure]
      exact hfail m _ hmod (hw₀.trans (hw₁.trans (World.le_log _ _))) hm (hs.of_log.after rfl)
    · intro a₁ w₁ hw₁ hs₁ ha₁ hn₁
      rw [if_neg (show ¬ (0 : Int) ≠ 0 by decide)]
      obtain ⟨p, hp, hc⟩ := hr.chains b l hb
      have hcopy : ∀ Q' : BucketArray δ → World → Prop,
          (l.length < 2 ^ 32 → ∀ a', a'.nmemb = l.length →
            a'.Shows ((l.map Obj.toStored).map some) → Q' a' w₁) →
          Runs E (copyChain h.objs (w₁.requests + 1) p 0 a₁) w₁ Q' := by
        intro Q' hQ'
        have hfuel : l.length < w₁.requests + 1 :=
          Nat.lt_succ_of_le (Nat.le_trans (hr.length_le hb) (hw₀.trans hw₁).requests)
        refine runs_copyChain (d := []) (m := l.length % 2 ^ 32) hc hfuel ha₁
          (fun hm => hE ?_ hmod) fun hm a' hn' ha' => ?_
        · by_contra hlen
          rw [Nat.mod_eq_of_lt (by omega)] at hm
          omega
        · have hlt : l.length < 2 ^ 32 := Nat.lt_of_le_of_lt hm (Nat.mod_lt _ (by decide))
          rw [Nat.mod_eq_of_lt hlt] at ha' hn₁
          refine hQ' hlt a' (hn'.trans hn₁) ?_
          simpa using ha'
      have hne : l ≠ [] := fun he => hmod (by simp [he])
      rcases heng with he | he | he | he <;> rw [he] <;> simp only [runs_bind] <;>
        refine Block.runs_load hr.tableAddr hp ?_ <;> rw [runs_walkBound] <;>
        refine hcopy _ fun hlt a' hn' ha' => ?_ <;> simp only [runs_mutexUnlock, runs_pure] <;>
        exact hok hne hlt a' _ (hw₀.trans (hw₁.trans (World.le_log _ _))) (hs₁.of_log.after rfl) hn' ha'

/-! ## The end and the start of a table -/

/-- Releasing a chain leaves the other objects alone. -/
theorem runs_freeChain {Q : Heap (HiBucketHlObj δ) → World → Prop}
    {objs : Heap (HiBucketHlObj δ)} {fuel : Nat} {cur : Option Ptr} {l : List (Obj δ)}
    (hc : (objLinkage δ).Chain objs cur l none) (hnd : (l.map Obj.self).Nodup)
    (hf : l.length < fuel)
    (hQ : ∀ objs' w', (∀ q, q ∉ l.map Obj.self → objs' q = objs q) → w ≤ w' →
      w'.moves = w.moves ++ (l.flatMap Obj.blocks).map .give → Q objs' w') :
    Runs E (freeChain fuel objs cur) w Q := by
  induction l generalizing fuel objs cur w with
  | nil =>
    obtain ⟨fuel, rfl⟩ : ∃ n, fuel = n + 1 := ⟨fuel - 1, by simp at hf; omega⟩
    cases hc
    exact hQ objs w (fun _ _ => rfl) le_rfl (List.append_nil _).symm
  | cons x l ih =>
    obtain ⟨fuel, rfl⟩ : ∃ n, fuel = n + 1 := ⟨fuel - 1, by simp at hf; omega⟩
    obtain ⟨rfl, o, ho, hs, hl⟩ := hc
    rw [List.map_cons, List.nodup_cons] at hnd
    rw [freeChain]
    refine runs_bind.mpr (runs_deref ho ?_)
    refine runs_bind.mpr (runs_free_moves fun w₁ hw₁ _ hm₁ => ?_)
    refine runs_bind.mpr (runs_free_moves fun w₂ hw₂ _ hm₂ => ?_)
    refine ih (hl.congr fun y hy => ?_) hnd.2 (by simpa using hf) fun objs' w₃ hobjs hw₃ hm₃ => ?_
    · exact Heap.set_other _ _ fun he => hnd.1 (List.mem_map.mpr ⟨y, hy, he⟩)
    · refine hQ objs' w₃ (fun q hq => ?_) (hw₁.trans (hw₂.trans hw₃)) ?_
      · simp only [List.map_cons, List.mem_cons, not_or] at hq
        exact (hobjs q hq.2).trans (Heap.set_other _ _ hq.1)
      · rw [show o.key.addr = some x.keyAddr from congrArg (·.key.addr) hs.1] at hm₁
        simp [hm₃, hm₂, hm₁, Obj.blocks, objLinkage]

/-- The end of a table. All objects are released, and the table. -/
theorem runs_lhiFiniList {Q : Int × HiHandle δ → World → Prop} (hr : ListRep h w os)
    (hQ : ∀ objs w', w ≤ w' → w.Books w' (listBlocks h os) h.baseBlocks → Q (success, { h with
      objs := objs
      bucketTable := { h.bucketTable with cells := [] } }) w') : Runs E (lhiFiniList h) w Q := by
  have hlen : os.length = h.tableSize.toNat := by simpa [contents] using hr.table.length
  unfold lhiFiniList
  rw [runs_bind, runs_walkBound, runs_bind]
  -- The chains that were not released yet are untouched.
  refine Runs.imp (runs_forUp (I := fun i objs w' => w ≤ w' ∧
    w'.moves = w.moves ++ ((os.take i).flatten.flatMap Obj.blocks).map .give ∧
    ∀ c m, i ≤ c → os[c]? = some m → ∀ x ∈ m, objs x.self = h.objs x.self)
    ⟨le_rfl, (List.append_nil _).symm, fun _ _ _ _ _ _ => rfl⟩ fun i objs w₁ _ hi hI => ?_) ?_
  · obtain ⟨hw₁, hm₁, hobjs⟩ := hI
    have hb : os[i]? = some os[i] := List.getElem?_eq_getElem (by omega)
    obtain ⟨p, hp, hc⟩ := hr.chains i _ hb
    refine runs_bind.mpr (Block.runs_load hr.tableAddr hp ?_)
    refine runs_freeChain (hc.congr fun x hx => hobjs i _ (Nat.le_refl i) hb x hx)
      (hr.distinct_bucket hb).1 (Nat.lt_succ_of_le (hr.length_le hb))
      fun objs' w₂ hobjs' hw₂ hm₂ => ?_
    refine ⟨hw₁.trans hw₂, ?_, fun c m hc hm x hx => ?_⟩
    · rw [hm₂, hm₁, List.take_add_one, hb]
      simp [-List.take_append_getElem]
    refine (hobjs' _ fun hq => ?_).trans (hobjs c m (Nat.le_of_succ_le hc) hm x hx)
    obtain ⟨y, hy, he⟩ := List.mem_map.mp hq
    exact (hr.distinct_bucket hb).2.2 y hy x (mem_others hm (Nat.ne_of_gt hc) hx) he
  · rintro objs w₁ ⟨hw₁, hm₁, -⟩
    refine runs_bind.mpr (runs_free_moves fun w₂ hw₂ _ hm₂ => ?_)
    refine hQ _ w₂ (hw₁.trans hw₂) (.trans (.gives hm₁ ?_) (.gives hm₂ (.refl _)))
    rw [Nat.zero_add, ← hlen, List.take_length]
    exact .refl _

/-- A new table of a list engine is empty. -/
theorem runs_lhiCreateEngList {Q : Except Int (HiHandle δ) → World → Prop} {u : UserSettings}
    {self : Ptr} {sizes : Fresh} {lock : Ptr}
    (hfail : ∀ w', w ≤ w' → ¬ w.AllocsSucceed → Q (.error hiErrSystem) w')
    (hok : ∀ h' w', w ≤ w' → w.Served 1 w' → ListRep h' w' (List.replicate u.tableSize.toNat []) →
      h'.toUserSettings = u → w.Books w' (HiHandle.ofSettings u self sizes lock : HiHandle δ).baseBlocks
        (listBlocks h' (List.replicate u.tableSize.toNat [])) → Q (.ok h') w') :
    Runs E (lhiCreateEngList (HiHandle.ofSettings u self sizes lock)) w Q := by
  unfold lhiCreateEngList
  rw [runs_bind]
  refine runs_xallocAlign_refused (fun _ w₁ hw₁ hr _ => hfail w₁ hw₁ hr.not_allocsSucceed)
    fun junk w₁ hw₁ hreq₁ hjunk hm₁ => ?_
  have hmem : ∀ (b : Nat) (l : List (Obj δ)),
      (List.replicate u.tableSize.toNat [])[b]? = some l → l = [] ∧ b < u.tableSize.toNat := by
    intro b l hb
    rw [List.getElem?_replicate] at hb
    split at hb
    · rename_i hlt
      cases hb
      exact ⟨rfl, hlt⟩
    · cases hb
  have hflat : (List.replicate u.tableSize.toNat ([] : List (Obj δ))).flatten = [] := by simp
  refine hok _ w₁ hw₁ (.one hreq₁ hjunk) ⟨⟨by simp [contents, HiHandle.ofSettings], ?_⟩, by simp,
    ?_, ?_, ?_, ?_, ?_, ?_, ?_⟩ rfl ((World.Books.take hm₁).perm ?_)
  · intro b l hb x hx
    simp only [contents, List.map_replicate, List.map_nil, List.getElem?_replicate] at hb
    split at hb
    · cases hb
      cases hx
    · cases hb
  · simp [HiHandle.ofSettings]
  · intro b l hb
    obtain ⟨rfl, hlt⟩ := hmem b l hb
    exact ⟨none, by simp [HiHandle.ofSettings, hlt], rfl⟩
  · simp [HiHandle.ofSettings]
  · simp [HiHandle.ofSettings]
  · rw [hflat]
    rfl
  · rw [hflat]
    exact List.nodup_nil
  · rw [hflat]
    simp
  · rw [listBlocks, hflat]
    exact .refl _

end ListRep

end Hashish
