import Hashish.IteratorCalls
import Hashish.RehashCorrectness

/-!
# The arrays of an iterator

An iterator reads the last of the `nmemb` cells of its three arrays. `Valid` says that there are
such cells, and that they were written.

`hi_iterator_reset` frees the arrays, but leaves `nmemb` as it is until a new snapshot was taken.

* `Stores.runs_hiIteratorReset_valid`: exactly when a reset leaves a valid iterator.
* `iterator_arrays_valid`: as long as each reset does, all iterators of a table are valid.
-/

namespace Hashish

open Hashish.Lib

variable {δ : Type} {F : Fault → Prop} {w w' : World} {h : HiHandle δ} {bs : List (List (Stored δ))}
  {i : HiIterator δ}

/-! ## Valid arrays -/

/-- The array is there, and its first `n` cells are written. -/
structure Block.Written {α : Type} (b : Block (Option α)) (n : Nat) : Prop where
  addr : b.addr ≠ none
  cells : ∀ j < n, ∃ x, b.cells[j]? = some (some x)

/-- There is nothing to read, or it can be read. -/
def BucketArray.Valid (a : BucketArray δ) : Prop :=
  a.nmemb = 0 ∨ (a.data.Written a.nmemb ∧ a.keys.Written a.nmemb ∧ a.keysLength.Written a.nmemb)

theorem Block.Written.mono {α : Type} {b : Block (Option α)} {m n : Nat} (hb : b.Written n)
    (hmn : m ≤ n) : b.Written m :=
  ⟨hb.addr, fun j hj => hb.cells j (Nat.lt_of_lt_of_le hj hmn)⟩

theorem Block.Written.runs_loadWritten {α : Type} {b : Block (Option α)} {j n : Nat}
    {Q : α → World → Prop} (hb : b.Written n) (hj : j < n) (hQ : ∀ x, Q x w) :
    Runs F (b.loadWritten j) w Q := by
  obtain ⟨x, hx⟩ := hb.cells j hj
  exact Hashish.runs_loadWritten hb.addr hx (hQ x)

theorem BucketArray.Shows.valid {a : BucketArray δ} {s : List (Stored δ)}
    (ha : a.Shows (s.map some)) (hn : a.nmemb = s.length) : a.Valid := by
  have hcells : ∀ {α : Type} (f : Stored δ → α), ∀ j < a.nmemb,
      ∃ x, ((s.map some).map (·.map f))[j]? = some (some x) := by
    intro α f j hj
    rw [hn] at hj
    exact ⟨f s[j], by simp [hj]⟩
  refine .inr ⟨⟨ha.dataAddr, ?_⟩, ⟨ha.keysAddr, ?_⟩, ⟨ha.lengthAddr, ?_⟩⟩
  · rw [ha.data]
    exact hcells _
  · rw [ha.keys]
    exact hcells _
  · rw [ha.keysLength]
    exact hcells _

theorem sizeT_pred_lt {n : Nat} (hn : n ≠ 0) : sizeT (n + (2 ^ 64 - 1)) < n := by
  unfold sizeT
  omega

/-- Reading a valid iterator leaves it valid. -/
theorem HiIterator.runs_handOut_valid (hi : i.a.Valid) (h₀ : i.a.nmemb ≠ 0) :
    Runs F i.handOut w fun r _ => r.2.a.Valid := by
  obtain ⟨hd, hk, hl⟩ := hi.resolve_left h₀
  have hlt := sizeT_pred_lt h₀
  unfold HiIterator.handOut
  dsimp only
  generalize sizeT (i.a.nmemb + (2 ^ 64 - 1)) = m at hlt ⊢
  refine runs_bind.mpr (hd.runs_loadWritten hlt fun d => ?_)
  refine runs_bind.mpr (hk.runs_loadWritten hlt fun k => ?_)
  refine runs_bind.mpr (hl.runs_loadWritten hlt fun n => ?_)
  have hd' := hd.mono (Nat.le_of_lt hlt)
  have hk' := hk.mono (Nat.le_of_lt hlt)
  have hl' := hl.mono (Nat.le_of_lt hlt)
  rw [runs_pure]
  show BucketArray.Valid ⟨i.a.data, i.a.keys, i.a.keysLength, m⟩
  unfold BucketArray.Valid
  exact .inr ⟨hd', hk', hl'⟩

/-! ## The next bucket -/

/-- Taking a snapshot failed, and why: the counters of the buckets `ls` are 0, or an allocation
failed. -/
def NoSnapshot (ls : List (List (Stored δ))) (w : World) : Prop :=
  (∀ l ∈ ls, l.length % 2 ^ 32 = 0) ∨ ¬ w.Serves 3

/-- A new snapshot is valid. Without one the arrays stay as they were. -/
def Refilled (ls : List (List (Stored δ))) (a : BucketArray δ) (w : World) (r : Int × HiIterator δ) :
    Prop :=
  (r.1 = 0 ∧ r.2.a.Valid ∧ r.2.a.nmemb ≠ 0 ∧ ¬ NoSnapshot ls w) ∨
  (r.1 ≠ 0 ∧ r.2.a = a ∧ NoSnapshot ls w)

namespace Stores

variable (hs : Stores h w bs)
  (hF : ∀ l ∈ bs, 2 ^ 32 ≤ l.length → l.length % 2 ^ 32 ≠ 0 → F .badAddress)
include hs hF

theorem runs_getNextLoop_valid {n : Nat} (hn : n = bs.length - i.bucket) :
    Runs F (getNextLoop (snapshotOf h.collEng) h n i) w fun r _ =>
      Refilled (bs.drop i.bucket) i.a w r := by
  induction n generalizing i w with
  | zero =>
    refine .inr ⟨show hiErrNodata ≠ 0 by decide, rfl, .inl ?_⟩
    rw [List.drop_eq_nil_of_le (by omega)]
    nofun
  | succ n ih =>
    have hlt : i.bucket < bs.length := by omega
    have hdrop : bs.drop i.bucket = bs[i.bucket] :: bs.drop (i.bucket + 1) :=
      List.drop_eq_getElem_cons hlt
    have hmem : bs[i.bucket] ∈ bs := List.getElem_mem hlt
    rw [getNextLoop]
    refine Runs.bind (hs.runs_snapshot (List.getElem?_eq_getElem hlt) (hF _ hmem)) ?_
    rintro ⟨ret, a⟩ w₁ hw₁ h₁
    dsimp only at h₁ ⊢
    rcases h₁ with ⟨he, hmod, hreq⟩ | ⟨he, -, m, hm, hsys⟩ | ⟨rfl, hsv, s, hs₀, hn', ha, hsnap⟩
    · obtain ⟨rfl, rfl⟩ := Prod.mk.inj he
      rw [if_neg (show ¬ hiErrNodata = 0 by decide), if_neg (not_not_intro rfl)]
      refine (ih (hs.mono hw₁) (i := { i with bucket := i.bucket + 1 })
        (show n = bs.length - (i.bucket + 1) by omega)).imp fun r w₂ h₂ => ?_
      have hiff : NoSnapshot (bs.drop i.bucket) w ↔ NoSnapshot (bs.drop (i.bucket + 1)) w₁ := by
        rw [NoSnapshot, NoSnapshot, hdrop, List.forall_mem_cons, World.Serves.of_requests hw₁ hreq,
          and_iff_right hmod]
      rw [Refilled, hiff]
      exact h₂
    · obtain ⟨rfl, rfl⟩ := Prod.mk.inj he
      rw [if_neg (show ¬ hiErrSystem = 0 by decide), if_pos (show hiErrSystem ≠ hiErrNodata by decide)]
      exact .inr ⟨show hiErrSystem ≠ 0 by decide, rfl, .inr (hsys.not_serves hm)⟩
    · rw [if_pos rfl]
      have hlen : s.length ≠ 0 := mt List.length_eq_zero_iff.mp hs₀
      refine .inl ⟨rfl, ha.valid hn', fun h₀ => hlen (hn'.symm.trans h₀), ?_⟩
      rintro (hall | hno)
      · have hzero := hall _ (hdrop ▸ List.mem_cons_self)
        exact hlen (hsnap.length.trans hzero)
      · exact hno hsv.serves

theorem runs_getNextBucket_valid {err : Int} : Runs F (getNextBucket err h i) w fun r _ =>
    Refilled (bs.drop i.bucket) i.a w r := by
  rw [hs.getNextBucket_eq, getNext, ← hs.table.length]
  exact hs.runs_getNextLoop_valid hF rfl

/-! ## The interface -/

theorem runs_hiIteratorCreate_valid : Runs F (hiIteratorCreate h) w fun r _ =>
    ∀ i, r = .ok i → i.a.Valid := by
  unfold hiIteratorCreate
  rw [runs_bind]
  refine runs_malloc (fun _ _ _ _ => nofun) fun junk w₁ hw₁ _ _ => ?_
  refine Runs.bind ((hs.mono hw₁).runs_getNextBucket_valid hF) fun r w₂ _ h₂ => ?_
  obtain ⟨ret, i⟩ := r
  dsimp only at h₂ ⊢
  rcases h₂ with ⟨h₀, hv, -⟩ | ⟨h₀, -⟩
  · rw [if_pos h₀]
    rintro _ ⟨⟩
    exact hv
  · rw [if_neg h₀]
    exact runs_bind.mpr (runs_free fun _ _ _ => nofun)

/-- A reset leaves a valid iterator if and only if there was nothing to read, or a new snapshot is
taken. -/
theorem runs_hiIteratorReset_valid : Runs F (hiIteratorReset h i) w fun r _ =>
    (r.2.a.Valid ↔ i.a.nmemb = 0 ∨ ((∃ c ∈ h.bucketSize.cells, c ≠ 0) ∧ w.Serves 3)) := by
  unfold hiIteratorReset
  refine runs_bind.mpr (runs_lhiBucketArrayFree fun w₁ hw₁ hn₁ => ?_)
  refine ((hs.mono hw₁).runs_getNextBucket_valid hF).imp fun r w₂ h₂ => ?_
  have hcells : (∃ c ∈ h.bucketSize.cells, c ≠ 0) ↔ ¬ ∀ l ∈ bs, l.length % 2 ^ 32 = 0 := by
    have hzero : ∀ l : List (Stored δ), UInt32.ofNat l.length = 0 ↔ l.length % 2 ^ 32 = 0 := by
      intro l
      rw [← UInt32.toNat_inj, UInt32.toNat_ofNat']
      exact Iff.rfl
    rw [hs.sizes]
    simp [hzero]
  have hiff : ((∃ c ∈ h.bucketSize.cells, c ≠ 0) ∧ w.Serves 3) ↔ ¬ NoSnapshot bs w₁ := by
    rw [hcells, NoSnapshot, World.Serves.of_requests hw₁ hn₁, not_or, not_not]
  rw [hiff]
  rcases h₂ with ⟨-, hv, -, hsnap⟩ | ⟨-, ha, hsnap⟩
  · exact iff_of_true hv (.inr hsnap)
  · rw [ha, or_iff_left (show ¬ ¬ NoSnapshot bs w₁ from not_not_intro hsnap)]
    exact or_iff_left fun hv => hv.1.addr rfl

theorem runs_hiIteratorGetnext_valid (hi : i.a.Valid) : Runs F (hiIteratorGetnext h i) w fun r _ =>
    r.2.2.a.Valid := by
  unfold hiIteratorGetnext
  refine runs_ite.mpr ⟨fun h₀ => ?_, fun h₀ => ?_⟩
  · exact Runs.bind (HiIterator.runs_handOut_valid hi h₀) fun _ _ _ hv => hv
  refine runs_bind.mpr (runs_lhiBucketArrayFree fun w₁ hw₁ _ => ?_)
  refine Runs.bind ((hs.mono hw₁).runs_getNextBucket_valid hF) fun r w₂ _ h₂ => ?_
  obtain ⟨ret, j⟩ := r
  dsimp only at h₂ ⊢
  rcases h₂ with ⟨h₁, hv, hne, -⟩ | ⟨h₁, ha, -⟩
  · rw [if_pos h₁]
    exact Runs.bind (HiIterator.runs_handOut_valid hv hne) fun _ _ _ hv' => hv'
  · rw [if_neg h₁]
    refine .inl ?_
    rw [show j.a = _ from ha]
    exact not_not.mp h₀

end Stores

/-! ## Runs -/

/-- A reset finds nothing left to read, or takes a new snapshot: some bucket does not count as empty,
and there is memory for its three arrays. -/
def ResetOk (t : IterTable δ) (w : World) (c : IterCall δ) : Prop :=
  match c with
  | .reset n => ∀ i, t.its[n]? = some i →
      i.a.nmemb = 0 ∨ ((∃ c ∈ t.handle.bucketSize.cells, c ≠ 0) ∧ w.Serves 3)
  | _ => True

/-- A linked table with valid iterators. -/
structure IterTable.Valid (t : IterTable δ) (w : World) : Prop where
  size : t.handle.tableSize ≠ 0
  stores : ∃ bs, Stores t.handle w bs
  its : ∀ i ∈ t.its, i.a.Valid

theorem IterTable.Valid.set {t : IterTable δ} (hv : t.Valid w) (hw : w ≤ w') (n : Nat)
    (hi : i.a.Valid) : { t with its := t.its.set n i }.Valid w' := by
  obtain ⟨bs, hs⟩ := hv.stores
  refine ⟨hv.size, ⟨bs, hs.mono hw⟩, fun j hj => ?_⟩
  rcases List.mem_or_eq_of_mem_set hj with hj | rfl
  · exact hv.its j hj
  · exact hi

theorem IterCall.runs_call_valid {t : IterTable δ} (hv : t.Valid w) (c : IterCall δ)
    (hok : ResetOk t w c) : Partial (c.call t) w fun r w' => r.2.Valid w' := by
  obtain ⟨bs, hs⟩ := hv.stores
  have hF : ∀ l ∈ bs, 2 ^ 32 ≤ l.length → l.length % 2 ^ 32 ≠ 0 → True := fun _ _ _ _ => trivial
  cases c with
  | map op =>
    refine Runs.bind (storesUpkeep.runs_call (.map op) hs.engine hv.size ⟨bs, hs⟩) fun r w₁ _ h₁ => ?_
    refine ⟨h₁.2.1, h₁.2.2 ?_, hv.its⟩
    cases op with
    | insert k d => exact .inr (.inr fun _ _ _ => trivial)
    | get k => trivial
    | remove k => trivial
  | create =>
    refine Runs.bind (hs.runs_hiIteratorCreate_valid hF) fun r w₁ hw₁ h₁ => ?_
    cases r with
    | error ret => exact ⟨hv.size, ⟨bs, hs.mono hw₁⟩, hv.its⟩
    | ok i =>
      refine ⟨hv.size, ⟨bs, hs.mono hw₁⟩, fun j hj => ?_⟩
      rcases List.mem_append.mp hj with hj | hj
      · exact hv.its j hj
      · obtain rfl := List.mem_singleton.mp hj
        exact h₁ _ rfl
  | getnext n =>
    rw [IterCall.call]
    cases hi : t.its[n]? with
    | none => exact hv
    | some i =>
      have hvi := hv.its i (List.mem_of_getElem? hi)
      exact Runs.bind (hs.runs_hiIteratorGetnext_valid hF hvi) fun r w₁ hw₁ h₁ => hv.set hw₁ n h₁
  | reset n =>
    rw [IterCall.call]
    cases hi : t.its[n]? with
    | none => exact hv
    | some i =>
      exact Runs.bind (hs.runs_hiIteratorReset_valid hF) fun r w₁ hw₁ h₁ =>
        hv.set hw₁ n (h₁.mpr (hok i hi))

/-- As long as each reset finds nothing left to read or takes a new snapshot, the arrays of all
iterators are valid, and `hi_iterator_getnext` can read them. -/
theorem iterator_arrays_valid {s : HiInitSet} {u : UserSettings} (hs : lhiSetSanityCheck s = .ok u)
    (he : plainEngine u.collEng) (hr : Reached s h w) {calls : List (IterCall δ)}
    (hok : Meets IterCall.call Machine.any (fun _ => ResetOk) calls () ⟨h, []⟩ w) :
    Partial (Prog.calls IterCall.call calls ⟨h, []⟩) w fun r w' => ∃ bs, Stores r.2.handle w' bs ∧
      ∀ i ∈ r.2.its, i.a.Valid ∧
        (i.a.nmemb ≠ 0 → Total i.handOut w' fun q _ => q.2.a.Valid) ∧
        (Fits bs → Total (hiIteratorGetnext r.2.handle i) w' fun q _ => q.2.2.a.Valid) := by
  obtain ⟨-, hu, hst⟩ := hr.stores hs he
  have hv : IterTable.Valid ⟨h, []⟩ w := ⟨hu, hst, nofun⟩
  refine (runs_calls (R := fun t w' _ => t.Valid w') hv hok fun c t w₁ _ ht hc => ?_).imp ?_
  · exact (c.runs_call_valid ht hc).imp fun r w₂ h₂ => ⟨trivial, h₂⟩
  · rintro r w' ⟨-, -, hv'⟩
    obtain ⟨bs, hst'⟩ := hv'.stores
    refine ⟨bs, hst', fun i hi => ⟨hv'.its i hi, ?_, fun hfit => ?_⟩⟩
    · exact HiIterator.runs_handOut_valid (hv'.its i hi)
    · exact hst'.runs_hiIteratorGetnext_valid (fun l hl hle => absurd (hfit l hl) (Nat.not_lt.mpr hle))
        (hv'.its i hi)

/-- An iterator that is reset after it has handed out the only entry. -/
theorem iterator_arrays_valid_reset :
    ∃ (h : HiHandle String) (w : World), Reached oneList h w ∧ h.noObjects = 1 ∧
      Partial (Prog.calls IterCall.call [.create, .getnext 0, .reset 0] ⟨h, []⟩) w fun r w' =>
        ∃ bs, Stores r.2.handle w' bs ∧ ∀ i ∈ r.2.its, i.a.Valid ∧
          (i.a.nmemb ≠ 0 → Total i.handOut w' fun q _ => q.2.a.Valid) ∧
          (Fits bs → Total (hiIteratorGetnext r.2.handle i) w' fun q _ => q.2.2.a.Valid) := by
  obtain ⟨h, w₁, rs, h', w₂, hcreate, hcalls, hcount, hok⟩ :
      ∃ (h : HiHandle String) (w₁ : World) (rs : _) (h' : HiHandle String) (w₂ : World),
        (hiCreate oneList).run (World.start fun _ _ => 0) = .ok (.ok h, w₁) ∧
        (Prog.calls TableOp.call [.map (.insert ⟨[1, 0], by decide⟩ "one")] h).run w₁ =
          .ok ((rs, h'), w₂) ∧ h'.noObjects = 1 ∧
        Meets IterCall.call Machine.any (fun _ => ResetOk) [.create, .getnext 0, .reset 0] ()
          ⟨h', []⟩ w₂ := by
    refine ⟨_, _, _, _, _, rfl, rfl, rfl, .cons trivial rfl (.cons trivial rfl (.cons ?_ rfl trivial))⟩
    exact fun i hi => .inr ⟨⟨1, List.mem_cons_self, by decide⟩, fun j hj => ⟨_, rfl⟩⟩
  have hreach : Reached oneList h' w₂ := ⟨World.start fun _ _ => 0, h, w₁,
    [.map (.insert ⟨[1, 0], by decide⟩ "one")], rs, hcreate, Meets.of_forall fun _ _ _ _ => trivial,
    hcalls⟩
  exact ⟨h', w₂, hreach, hcount,
    iterator_arrays_valid (s := oneList) rfl (.inl (.inl rfl)) hreach hok⟩

/-! ## A reset that fails -/

/-- A world in which the first `n` replies are blocks, and the others are not. -/
def World.startFailing (n : Nat) : World :=
  ⟨fun i => if i < n then .block fun _ => 0 else .fail ⟨12, by decide⟩, 0, []⟩

/-- A reset without memory in the middle of a bucket: one entry is left to read, the arrays are gone,
and the next call reads through a null pointer. -/
theorem iterator_reset_invalid :
    ∃ (h : HiHandle String) (w₁ : World) (rs : _) (t : IterTable String) (w₂ : World) (i : _),
      (hiCreate oneList).run (World.startFailing 13) = .ok (.ok h, w₁) ∧
      (Prog.calls IterCall.call [.map (.insert ⟨[1, 0], by decide⟩ "one"),
        .map (.insert ⟨[2, 0], by decide⟩ "two"), .create, .getnext 0, .reset 0] ⟨h, []⟩).run w₁ =
        .ok ((rs, t), w₂) ∧
      rs.map (·.map IterAnswer.status) =
        [some success, some success, some success, some success, some hiErrSystem] ∧
      t.its = [i] ∧ ¬ i.a.Valid ∧
      ((IterCall.getnext 0).call t).run w₂ = .error .nullDeref := by
  obtain ⟨h, w₁, rs, t, w₂, i, hcreate, hcalls, hrs, hits, hn, hd, hnext⟩ :
      ∃ (h : HiHandle String) (w₁ : World) (rs : _) (t : IterTable String) (w₂ : World) (i : _),
        (hiCreate oneList).run (World.startFailing 13) = .ok (.ok h, w₁) ∧
        (Prog.calls IterCall.call [.map (.insert ⟨[1, 0], by decide⟩ "one"),
          .map (.insert ⟨[2, 0], by decide⟩ "two"), .create, .getnext 0, .reset 0] ⟨h, []⟩).run w₁ =
          .ok ((rs, t), w₂) ∧
        rs.map (·.map IterAnswer.status) =
          [some success, some success, some success, some success, some hiErrSystem] ∧
        t.its = [i] ∧ i.a.nmemb = 1 ∧ i.a.data.addr = none ∧
        ((IterCall.getnext 0).call t).run w₂ = .error .nullDeref :=
    ⟨_, _, _, _, _, _, rfl, rfl, rfl, rfl, rfl, rfl, rfl⟩
  refine ⟨h, w₁, rs, t, w₂, i, hcreate, hcalls, hrs, hits, ?_, hnext⟩
  rintro (h₀ | ⟨hw, -⟩)
  · exact absurd (hn.symm.trans h₀) (by decide)
  · exact hw.addr hd

end Hashish
