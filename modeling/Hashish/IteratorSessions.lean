import Hashish.FullIteration
import Hashish.IteratorArrays

/-!
# Iterators and concurrent retrieval

Several iterators on one table, with calls of `hi_get` between the calls on them. Retrieval may
reorder a bucket, so the iterators know the buckets of the table up to their order.

`iterMachine all` is what a client sees: each iterator hands out the entries `all` in some order, each
of them once, and then has no data.

* `iterators_hand_out_table`: the iterators of a table that a session reaches do so.
* `iterators_miss_entries`: what wrapped counters do to them.
-/

namespace Hashish

open Hashish.Lib

variable {δ : Type} {w w' : World} {h : HiHandle δ} {bs : List (List (Stored δ))}

/-- A call that does not change what is stored. -/
def IterCall.Reads (c : IterCall δ) : Prop :=
  match c with
  | .map (.get _) => True
  | .map _ => False
  | .create | .getnext _ | .reset _ => True

/-- Iterators that have handed out `ds`, over a table with the entries `all`. -/
def iterMachine (all : List (Item δ)) :
    Machine (IterCall δ) (Option (IterAnswer δ)) (List (List (Item δ))) where
  allows ds c r :=
    match c with
    | .map _ => ∃ a, r = some a ∧ a.item = none
    | .create => r = some ⟨success, none, none⟩
    | .getnext n =>
      match ds[n]? with
      | none => r = none
      | some done =>
        if done.length < all.length then
          ∃ item, r = some ⟨success, none, some item⟩ ∧ (done ++ [item]).Subperm all
        else r = some ⟨hiErrNodata, none, none⟩
    | .reset n =>
      match ds[n]? with
      | none => r = none
      | some _ => r = some ⟨success, none, none⟩
  next ds c r :=
    match c with
    | .map _ => ds
    | .create => ds ++ [[]]
    | .getnext n =>
      match ds[n]?, r.bind IterAnswer.item with
      | some done, some item => ds.set n (done ++ [item])
      | _, _ => ds
    | .reset n => ds.set n []

/-! ## One iterator -/

/-- A snapshot with all pairs of a bucket whose counter is right. -/
def FullSnap (l s : List (Stored δ)) : Prop := s.Perm l ∧ l.length < 2 ^ 32

theorem FullSnap.perm (l s : List (Stored δ)) (hs : FullSnap l s) : s.Perm l := hs.1

theorem FullSnap.subperm (l s : List (Stored δ)) (hs : FullSnap l s) : s.Subperm l := hs.1.subperm

theorem FullSnap.length_lt (l s : List (Stored δ)) (hs : FullSnap l s) : s.length < 2 ^ 64 := by
  rw [hs.1.length_eq]
  exact Nat.lt_trans hs.2 (by decide)

/-- An iterator that has handed out `done`. At the end its counter of buckets does not wrap within the
next `n` calls. -/
def ItAt (bs : List (List (Stored δ))) (n : Nat) (i : HiIterator δ) (done : List (Item δ)) : Prop :=
  ∃ xs : List (Stored δ), done = xs.map Stored.item ∧
    (IterAt FullSnap bs i xs ∨ (xs.Perm bs.flatten ∧ IterEnd bs i ∧ i.bucket + n < 2 ^ 64))

theorem ItAt.le {n : Nat} {i : HiIterator δ} {done : List (Item δ)} (hi : ItAt bs (n + 1) i done) :
    ItAt bs n i done := by
  obtain ⟨xs, hxs, hat | ⟨hp, he, hlt⟩⟩ := hi
  · exact ⟨xs, hxs, .inl hat⟩
  · exact ⟨xs, hxs, .inr ⟨hp, he, by omega⟩⟩

section Calls

variable {toArray : ToArray δ} {n : Nat} {i : HiIterator δ} {done : List (Item δ)}
  (ht : Iterable (fun _ => False) toArray h w FullSnap (fun _ => False) bs) (hw : w.AllocsSucceed)
include ht hw

theorem Iterable.runs_create_itAt (hne : bs.flatten ≠ []) :
    Total (hiIteratorCreate h) w fun r _ => ∃ i, r = .ok i ∧ ItAt bs n i [] := by
  refine ht.runs_hiIteratorCreate.imp fun r _ h₁ => ?_
  rcases h₁ with ⟨i, rfl, hi, -⟩ | ⟨-, ho⟩ | ⟨-, hs⟩
  · exact ⟨i, rfl, [], rfl, .inl (hi.resolve_right id)⟩
  · exact (hne (ho.perm FullSnap.perm).nil_eq.symm).elim
  · exact (hs hw).elim

theorem Iterable.runs_reset_itAt (hne : bs.flatten ≠ []) :
    Total (hiIteratorReset h i) w fun r _ => r.1 = success ∧ ItAt bs n r.2 [] := by
  refine ht.runs_hiIteratorReset.imp fun r _ h₁ => ?_
  rcases h₁ with ⟨hr, hi, -⟩ | ⟨-, ho⟩ | ⟨-, hs⟩
  · exact ⟨hr, [], rfl, .inl (hi.resolve_right id)⟩
  · exact (hne (ho.perm FullSnap.perm).nil_eq.symm).elim
  · exact (hs hw).elim

/-- The next entry as long as there is one, and no data from then on. -/
theorem Iterable.runs_getnext_itAt (hi : ItAt bs (n + 1) i done) (hn : n + 2 ^ 32 < 2 ^ 64) :
    Total (hiIteratorGetnext h i) w fun r _ =>
      (done.length < (bs.flatten.map Stored.item).length ∧ ∃ item, r.1 = success ∧
        r.2.1 = some item ∧ (done ++ [item]).Subperm (bs.flatten.map Stored.item) ∧
        ItAt bs n r.2.2 (done ++ [item])) ∨
      (¬ done.length < (bs.flatten.map Stored.item).length ∧ r.1 = hiErrNodata ∧ r.2.1 = none ∧
        ItAt bs n r.2.2 done) := by
  have hlen : bs.length < 2 ^ 32 := ht.length ▸ h.tableSize.toNat_lt
  have hfull : ∀ {xs : List (Stored δ)}, xs.Perm bs.flatten →
      ¬ (xs.map Stored.item).length < (bs.flatten.map Stored.item).length := by
    intro xs hp
    rw [List.length_map, List.length_map, hp.length_eq]
    exact Nat.lt_irrefl _
  obtain ⟨xs, rfl, hat | ⟨hp, he, hlt⟩⟩ := hi
  · refine (ht.runs_hiIteratorGetnext (.inl hat) (by omega) FullSnap.length_lt).imp fun r _ h₁ => ?_
    rcases h₁ with ⟨x, hr, hitem, hat'⟩ | ⟨hr, hitem, ho, he, hb⟩ | ⟨-, -, hs⟩
    · obtain ⟨ys, hys, hys'⟩ := hat'.subperm FullSnap.subperm
      have hsub : (xs.map Stored.item ++ [x.item]).Subperm (bs.flatten.map Stored.item) := by
        have hmap := hys.map Stored.item
        rw [List.map_append] at hmap
        exact ⟨ys.map Stored.item, hmap, hys'.map Stored.item⟩
      have hlt := hsub.length_le
      rw [List.length_append] at hlt
      exact .inl ⟨hlt, x.item, hr, hitem, hsub, xs ++ [x], by rw [List.map_append]; rfl, .inl hat'⟩
    · have hp := ho.perm FullSnap.perm
      exact .inr ⟨hfull hp, hr, hitem, xs, rfl, .inr ⟨hp, he, by omega⟩⟩
    · exact (hs hw).elim
  · refine (ht.runs_hiIteratorGetnext_end he (by omega)).imp fun r _ h₁ => ?_
    obtain ⟨hr, hitem, he', hb⟩ := h₁
    exact .inr ⟨hfull hp, hr, hitem, xs, rfl, .inr ⟨hp, he', by omega⟩⟩

end Calls

/-! ## Runs -/

/-- A table with the entries of `bs`, and iterators that have handed out `ds`. -/
structure ItsAt (bs : List (List (Stored δ))) (n : Nat) (t : IterTable δ) (w : World)
    (ds : List (List (Item δ))) : Prop where
  calls : n + 2 ^ 32 ≤ 2 ^ 64
  allocs : w.AllocsSucceed
  size : t.handle.tableSize ≠ 0
  stores : ∃ bs', Stores t.handle w bs' ∧ List.Forall₂ List.Perm bs' bs
  its : List.Forall₂ (ItAt bs n) t.its ds

namespace ItsAt

variable {t : IterTable δ} {n : Nat} {ds : List (List (Item δ))}

theorem iterable (hi : ItsAt bs n t w ds) (hfit : Fits bs) :
    ∃ toArray, Iterable (fun _ => False) toArray t.handle w FullSnap (fun _ => False) bs := by
  obtain ⟨bs', hs, hperm⟩ := hi.stores
  have hget := List.forall₂_iff_get.mp hperm
  have hfit' : Fits bs' := by
    intro l hl
    obtain ⟨b, hb, rfl⟩ := List.getElem_of_mem hl
    have hb' : b < bs.length := hget.1 ▸ hb
    exact (hget.2 b hb hb').length_eq ▸ hfit _ (List.getElem_mem hb')
  refine ⟨_, (hs.iterable fun l hl hle => absurd (hfit' l hl) (Nat.not_lt.mpr hle)).of_forall₂ hperm ?_⟩
  intro l hl m hm s hsnap
  exact ⟨(hsnap.perm (hfit' l hl)).trans hm, hm.length_eq ▸ hfit' l hl⟩

/-- A call that answers as the machine does leaves a table and iterators as the machine says. -/
theorem runs_call (hi : ItsAt bs (n + 1) t w ds) (hfit : Fits bs) (hne : bs.flatten ≠ [])
    {c : IterCall δ} (hc : c.Reads) :
    Total (c.call t) w fun r w' => (iterMachine (bs.flatten.map Stored.item)).allows ds c r.1 ∧
      ItsAt bs n r.2 w' ((iterMachine (bs.flatten.map Stored.item)).next ds c r.1) := by
  obtain ⟨toArray, ht⟩ := hi.iterable hfit
  obtain ⟨hcalls, hw, hu, ⟨bs', hs, hperm⟩, hits⟩ := hi
  have hle := hits.imp fun _ _ hi => hi.le
  have hstay : ∀ {w'}, w ≤ w' → ∀ {its ds'}, List.Forall₂ (ItAt bs n) its ds' →
      ItsAt bs n { t with its := its } w' ds' := fun hw' _ _ h' =>
    ⟨by omega, hw.mono hw', hu, ⟨bs', hs.mono hw', hperm⟩, h'⟩
  cases c with
  | map op =>
    cases op with
    | insert k d => exact hc.elim
    | remove k => exact hc.elim
    | get k =>
      refine Runs.bind (hs.runs_hiGet hu) fun r w₁ hw₁ h₁ => ?_
      obtain ⟨hset, bs₁, hs₁, hperm₁⟩ := h₁
      refine ⟨⟨_, rfl, rfl⟩, by omega, hw.mono hw₁, ?_, ⟨bs₁, hs₁, ?_⟩, hle⟩
      · rw [show r.2.tableSize = _ from congrArg UserSettings.tableSize hset]
        exact hu
      · exact forall₂_trans (fun hab hbc => hab.trans hbc) hperm₁ hperm
  | create =>
    refine Runs.bind (ht.runs_create_itAt (n := n) hw hne) fun r w₁ hw₁ h₁ => ?_
    obtain ⟨i, rfl, hi⟩ := h₁
    exact ⟨rfl, hstay hw₁ (List.rel_append hle (.cons hi .nil))⟩
  | getnext m =>
    rw [IterCall.call, iterMachine]
    rcases forall₂_getElem? hits m with ⟨hm, hd⟩ | ⟨i, done, hm, hd, hi⟩
    · simp only [hm, hd, runs_pure, true_and]
      exact hstay le_rfl hle
    simp only [hm, hd]
    refine Runs.bind (ht.runs_getnext_itAt hw hi (by omega)) fun r w₁ hw₁ h₁ => ?_
    obtain ⟨ret, next, i'⟩ := r
    rcases h₁ with ⟨hlt, item, rfl, rfl, hsub, hi'⟩ | ⟨hge, rfl, rfl, hi'⟩
    · rw [runs_pure, if_pos hlt]
      exact ⟨⟨item, rfl, hsub⟩, hstay hw₁ (forall₂_set hle hi')⟩
    · rw [runs_pure, if_neg hge]
      refine ⟨rfl, hstay hw₁ ?_⟩
      rw [← set_self hd]
      exact forall₂_set hle hi'
  | reset m =>
    rw [IterCall.call, iterMachine]
    rcases forall₂_getElem? hits m with ⟨hm, hd⟩ | ⟨i, done, hm, hd, hi⟩
    · simp only [hm, hd, runs_pure, true_and]
      refine hstay le_rfl ?_
      rw [List.set_eq_of_length_le (List.getElem?_eq_none_iff.mp hd)]
      exact hle
    simp only [hm, hd]
    refine Runs.bind (ht.runs_reset_itAt (n := n) hw hne) fun r w₁ hw₁ h₁ => ?_
    obtain ⟨ret, i'⟩ := r
    obtain ⟨rfl, hi'⟩ := h₁
    exact ⟨rfl, hstay hw₁ (forall₂_set hle hi')⟩

end ItsAt

/-- The copy of a bucket: as many pairs as its counter says, all cells of them written. -/
def CopiesCounted (h : HiHandle δ) (w : World) (b : Nat) : Prop :=
  ∀ a, Total (snapshotOf h.collEng h b a) w fun r _ => ∃ n, h.bucketSize.cells[b]? = some n ∧
    ((r = (hiErrNodata, a) ∧ n = 0) ∨
      (r.1 = 0 ∧ r.2.nmemb = n.toNat ∧ r.2.data.Written n.toNat ∧ r.2.keys.Written n.toNat ∧
        r.2.keysLength.Written n.toNat))

theorem Stores.copiesCounted (hs : Stores h w bs) (hw : w.AllocsSucceed) (hfit : Fits bs) {b : Nat}
    (hb : b < h.tableSize.toNat) : CopiesCounted h w b := by
  intro a
  rw [← hs.table.length] at hb
  have hl : bs[b]? = some bs[b] := List.getElem?_eq_getElem hb
  have hlt := hfit _ (List.getElem_mem hb)
  have hcell : h.bucketSize.cells[b]? = some (UInt32.ofNat bs[b].length) := by
    rw [hs.sizes, List.getElem?_map, hl]
    rfl
  have hsize : (UInt32.ofNat bs[b].length).toNat = bs[b].length := by
    rw [UInt32.toNat_ofNat', Nat.mod_eq_of_lt hlt]
  refine (hs.runs_snapshot hl fun hle => absurd hlt (Nat.not_lt.mpr hle)).imp fun r w' h₁ => ?_
  refine ⟨_, hcell, ?_⟩
  rcases h₁ with ⟨hr, hmod, -⟩ | ⟨-, -, n, -, hsys⟩ | ⟨hr, -, s, hs₀, hn, ha, hsnap⟩
  · refine .inl ⟨hr, UInt32.toNat_inj.mp (hsize.trans ?_)⟩
    rwa [Nat.mod_eq_of_lt hlt] at hmod
  · exact (hsys.not_allocsSucceed hw).elim
  · have hlen : s.length = bs[b].length := by rw [hsnap.length, Nat.mod_eq_of_lt hlt]
    rw [hsize, ← hlen, ← hn]
    refine .inr ⟨hr, rfl, (ha.valid hn).resolve_left ?_⟩
    rw [hn]
    exact mt List.length_eq_zero_iff.mp hs₀

/-- The iterators of a table that a session reaches hand out each entry once, and then have no data,
however calls of `hi_get` come between. -/
theorem iterators_hand_out_table {s : HiInitSet} {u : UserSettings} (hs : lhiSetSanityCheck s = .ok u)
    (he : plainEngine u.collEng) (hr : Reached s h w) (hw : w.AllocsSucceed) :
    ∃ bs, Stores h w bs ∧ (bs.flatten ≠ [] → Fits bs →
      (∀ b < h.tableSize.toNat, CopiesCounted h w b) ∧
      ∀ calls : List (IterCall δ), (∀ c ∈ calls, c.Reads) → calls.length + 2 ^ 32 ≤ 2 ^ 64 →
        Total (Prog.calls IterCall.call calls ⟨h, []⟩) w fun r _ =>
          ∃ ds, (iterMachine (bs.flatten.map Stored.item)).Trace [] calls r.1 ds) := by
  obtain ⟨-, hu, bs, hst⟩ := hr.stores hs he
  refine ⟨bs, hst, fun hne hfit =>
    ⟨fun b hb => hst.copiesCounted hw hfit hb, fun calls hreads hlen => ?_⟩⟩
  have hstart : ItsAt bs calls.length ⟨h, []⟩ w [] :=
    ⟨hlen, hw, hu, ⟨bs, hst, List.forall₂_same.mpr fun _ _ => .refl _⟩, .nil⟩
  refine (runs_calls_counted (R := fun n t w ds => ItsAt bs n t w ds) hstart
    fun c hc n t w₁ ds hi => hi.runs_call hfit hne (hreads c hc)).imp ?_
  exact fun r _ h₁ => h₁.imp fun _ h₂ => h₂.1

/-- An iterator over a table of one entry. -/
theorem iterators_hand_out_table_one :
    ∃ (h : HiHandle String) (w : World), Reached oneList h w ∧ h.noObjects = 1 ∧
      ∃ bs, Stores h w bs ∧ (∀ b < h.tableSize.toNat, CopiesCounted h w b) ∧
        Total (Prog.calls IterCall.call [.create, .getnext 0, .map (.get ⟨[1, 0], by decide⟩),
          .getnext 0, .reset 0, .getnext 0] ⟨h, []⟩) w fun r _ =>
          ∃ ds, (iterMachine (bs.flatten.map Stored.item)).Trace [] [.create, .getnext 0,
            .map (.get ⟨[1, 0], by decide⟩), .getnext 0, .reset 0, .getnext 0] r.1 ds := by
  obtain ⟨h, w₁, rs, h', w₂, hcreate, hcalls, hcount, hw, hreq⟩ :
      ∃ (h : HiHandle String) (w₁ : World) (rs : _) (h' : HiHandle String) (w₂ : World),
        (hiCreate oneList).run (World.start fun _ _ => 0) = .ok (.ok h, w₁) ∧
        (Prog.calls TableOp.call [.map (.insert ⟨[1, 0], by decide⟩ "one")] h).run w₁ =
          .ok ((rs, h'), w₂) ∧ h'.noObjects = 1 ∧ w₂.AllocsSucceed ∧ w₂.requests < 2 ^ 32 := by
    refine ⟨_, _, _, _, _, rfl, rfl, rfl, fun n => ⟨_, rfl⟩, ?_⟩
    decide
  have hreach : Reached oneList h' w₂ := ⟨World.start fun _ _ => 0, h, w₁,
    [.map (.insert ⟨[1, 0], by decide⟩ "one")], rs, hcreate, Meets.of_forall fun _ _ _ _ => trivial,
    hcalls⟩
  obtain ⟨bs, hst, hruns⟩ := iterators_hand_out_table (s := oneList) rfl (.inl (.inl rfl)) hreach hw
  have hne : bs.flatten ≠ [] := by
    intro hnil
    have hzero := hst.count
    rw [hnil, hcount] at hzero
    exact absurd hzero (by decide)
  obtain ⟨hcopies, hcalls'⟩ := hruns hne fun l hl => Nat.lt_of_le_of_lt (hst.length_le hl) hreq
  exact ⟨h', w₂, hreach, hcount, bs, hst, hcopies, hcalls' _ (by simp [IterCall.Reads]) (by decide)⟩

/-! ## Wrapped counters -/

section Wrap

variable {toArray : ToArray δ} {x : Stored δ} {n : Nat} {i : HiIterator δ}
  (ht : Iterable (fun _ => False) toArray h w FullSnap (fun _ => False) [[x]])
include ht

/-- At the end the counter of buckets counts the calls. -/
theorem Iterable.runs_getnexts_end (hi : IterEnd [[x]] i) (hb : i.bucket + n < 2 ^ 64) :
    Total (Prog.calls IterCall.call (List.replicate n (.getnext 0)) ⟨h, [i]⟩) w fun r _ =>
      ∃ j, r.2 = ⟨h, [j]⟩ ∧ IterEnd [[x]] j ∧ j.bucket = i.bucket + n := by
  induction n generalizing i w with
  | zero => exact ⟨i, rfl, hi, rfl⟩
  | succ n ih =>
    refine runs_calls_cons ?_
    refine Runs.bind (ht.runs_hiIteratorGetnext_end hi (by omega)) fun r w₁ hw₁ h₁ => ?_
    obtain ⟨-, -, hi', hb'⟩ := h₁
    refine (ih (ht.mono hw₁) hi' (by omega)).imp fun r' w₂ h₂ => ?_
    obtain ⟨j, hj, hend, hbj⟩ := h₂
    exact ⟨j, hj, hend, by omega⟩

/-- When the counter of buckets wraps, the iterator starts again. -/
theorem Iterable.runs_getnext_wrapped (hw : w.AllocsSucceed) (hi : IterEnd [[x]] i)
    (hb : i.bucket + 1 = 2 ^ 64) :
    Total ((IterCall.getnext 0).call ⟨h, [i]⟩) w fun r _ =>
      r.1 = some ⟨success, none, some x.item⟩ := by
  have hbucket : sizeT (i.bucket + 1) = 0 := by
    rw [hb]
    exact Nat.mod_self _
  refine Runs.bind (ht.runs_hiIteratorGetnext_turn hi.2 hbucket (Nat.zero_le _) .nil
    FullSnap.length_lt) fun r w₁ _ h₁ => ?_
  rcases h₁ with ⟨y, hr, hitem, hat⟩ | ⟨-, -, ho, -⟩ | ⟨-, -, hs⟩
  · have hmem : y ∈ [[x]].flatten := (hat.subperm FullSnap.subperm).subset List.mem_cons_self
    obtain rfl : y = x := by simpa using hmem
    obtain ⟨ret, next, j⟩ := r
    dsimp only at hr hitem ⊢
    rw [hr, hitem]
    rfl
  · exact absurd (ho.perm FullSnap.perm).length_eq (by simp [handedOut])
  · exact (hs hw).elim

/-- The only entry is handed out, and again after the counter of buckets has wrapped. -/
theorem Iterable.runs_around (hw : w.AllocsSucceed) (hn : n + 2 = 2 ^ 64) :
    Total (Prog.calls IterCall.call (.create :: .getnext 0 :: .getnext 0 ::
      (List.replicate n (.getnext 0) ++ [.getnext 0])) ⟨h, []⟩) w fun r _ =>
        r.1[1]? = some (some ⟨success, none, some x.item⟩) ∧
        r.1.getLast? = some (some ⟨success, none, some x.item⟩) := by
  have hnone : ∀ {done}, AllOut FullSnap [[x]] done → done.length = 1 :=
    fun ho => (ho.perm FullSnap.perm).length_eq
  refine runs_calls_cons (Runs.bind ht.runs_hiIteratorCreate fun r w₁ hw₁ h₁ => ?_)
  rcases h₁ with ⟨i₁, rfl, hi₁, -⟩ | ⟨-, ho⟩ | ⟨-, hs⟩
  rotate_left
  · exact absurd (hnone ho) (by simp)
  · exact (hs hw).elim
  have ht₁ := ht.mono hw₁
  refine runs_calls_cons (Runs.bind (ht₁.runs_hiIteratorGetnext (.inl (hi₁.resolve_right id))
    (by simp) FullSnap.length_lt) fun r w₂ hw₂ h₂ => ?_)
  rcases h₂ with ⟨y, hr, hitem, hi₂⟩ | ⟨-, -, ho, -⟩ | ⟨-, -, hs⟩
  rotate_left
  · exact absurd (hnone ho) (by simp)
  · exact (hs (hw.mono hw₁)).elim
  have hmem : y ∈ [[x]].flatten := (hi₂.subperm FullSnap.subperm).subset List.mem_cons_self
  obtain rfl : y = x := by simpa using hmem
  have hfirst : (⟨r.1, none, r.2.1⟩ : IterAnswer δ) = ⟨success, none, some y.item⟩ := by
    rw [hr, hitem]
    rfl
  have ht₂ := ht₁.mono hw₂
  refine runs_calls_cons (Runs.bind (ht₂.runs_hiIteratorGetnext (.inl hi₂) (by simp)
    FullSnap.length_lt) fun q w₃ hw₃ h₃ => ?_)
  rcases h₃ with ⟨z, -, -, hi₃⟩ | ⟨-, -, -, hend, hb⟩ | ⟨-, -, hs⟩
  · exact absurd (hi₃.subperm FullSnap.subperm).length_le (by simp)
  · have ht₃ := ht₂.mono hw₃
    have hw₃' := hw.mono (hw₁.trans (hw₂.trans hw₃))
    have hbucket : q.2.2.bucket = 1 := hb
    have hends := ht₃.runs_getnexts_end (n := n) hend (by omega)
    refine runs_calls_append (hends.and_grows.imp fun r' w₄ h₄ => ?_)
    obtain ⟨hw₄, j, hj, hend', hbj⟩ := h₄
    rw [hj]
    have hwrap := (ht₃.mono hw₄).runs_getnext_wrapped (hw₃'.mono hw₄) hend' (by omega)
    refine runs_calls_cons (hwrap.imp fun a w₅ ha => ?_)
    rw [Prog.calls, runs_pure, hfirst, ha]
    exact ⟨rfl, List.getLast?_concat (l := _ :: _ :: _ :: r'.1)⟩
  · exact (hs (hw.mono (hw₁.trans hw₂))).elim

end Wrap

/-- As many calls of `hi_iterator_getnext` as the counter of buckets can count. It is not to be
unfolded. -/
@[irreducible] def aroundCalls : List (IterCall String) :=
  .create :: .getnext 0 :: .getnext 0 :: (List.replicate (2 ^ 64 - 2) (.getnext 0) ++ [.getnext 0])

/-- Two counters that wrap. A full iteration passes over a bucket of `2 ^ 32` entries, whose 32-bit
counter is 0; and an iterator that has come to the end starts again when its counter of buckets comes
to 0. -/
theorem iterators_miss_entries :
    (Total (session splitList splitInsertions) (World.start fun _ _ => 0) fun r w =>
      ∃ rs h, r = .ok (rs, h) ∧
        (∀ i ≤ 2 ^ 32, Total (hiGet h (numberKey i).bytes (numberKey i).keylen) w fun a _ =>
          a.1.status = success) ∧
        Total (iterate h 2) w fun q _ => q.1.length = 1 ∧ q.2 = hiErrNodata) ∧
    ∃ (h : HiHandle String) (w : World) (item : Item String), Reached oneList h w ∧ h.noObjects = 1 ∧
      Total (Prog.calls IterCall.call aroundCalls ⟨h, []⟩) w fun r _ =>
        r.1[1]? = some (some ⟨success, none, some item⟩) ∧
        r.1.getLast? = some (some ⟨success, none, some item⟩) := by
  constructor
  · obtain ⟨M, hM⟩ : ∃ M, 2 ^ 32 = M := ⟨_, rfl⟩
    refine (runs_splitInsertions hM).imp ?_
    rintro r w ⟨rs, h, l₀, l₁, rfl, hw, ht⟩
    rw [hM]
    refine ⟨_, h, rfl, fun i hi => ht.runs_hiGet hi, ?_⟩
    have hiter := (listEngine Unit).iterable (F := fun _ => False) (.inl ht.engine) ht.rep
      (P := SnapOf h.keyCmp ((listEngine Unit).Known h [l₀, l₁])) (fun _ _ _ hs => hs) (ht.copies hM)
    have hsum : ([l₀, l₁].map fun l => l.length % 2 ^ 32).sum < 2 := by
      simp only [List.map_cons, List.map_nil, List.sum_cons, List.sum_nil, ht.first, ht.second, hM,
        Nat.mod_self]
      have := Nat.mod_le 1 M
      omega
    refine (hiter.runs_iterate hw (by simp) (fun l s hs => ?_) hsum).imp fun q _ hq => ?_
    · rw [hs.length]
      omega
    · obtain ⟨hret, done, hitems, ss, hss, rfl⟩ := hq
      obtain ⟨s₁, rfl, hlen, -⟩ := ht.snapshots hM hss
      rw [hitems, List.length_map, length_handedOut]
      exact ⟨by simpa using hlen, hret⟩
  · obtain ⟨h, w₁, rs, h', w₂, hcreate, hcalls, hcount, hsize, hw, hreq⟩ :
        ∃ (h : HiHandle String) (w₁ : World) (rs : _) (h' : HiHandle String) (w₂ : World),
          (hiCreate oneList).run (World.start fun _ _ => 0) = .ok (.ok h, w₁) ∧
          (Prog.calls TableOp.call [.map (.insert ⟨[1, 0], by decide⟩ "one")] h).run w₁ =
            .ok ((rs, h'), w₂) ∧ h'.noObjects = 1 ∧ h'.tableSize = 1 ∧ w₂.AllocsSucceed ∧
          w₂.requests < 2 ^ 32 := by
      refine ⟨_, _, _, _, _, rfl, rfl, rfl, rfl, fun n => ⟨_, rfl⟩, ?_⟩
      decide
    have hreach : Reached oneList h' w₂ := ⟨World.start fun _ _ => 0, h, w₁,
      [.map (.insert ⟨[1, 0], by decide⟩ "one")], rs, hcreate, Meets.of_forall fun _ _ _ _ => trivial,
      hcalls⟩
    obtain ⟨-, -, bs, hst⟩ := hreach.stores (s := oneList) rfl (.inl (.inl rfl))
    have hfit : Fits bs := fun l hl => Nat.lt_of_le_of_lt (hst.length_le hl) hreq
    obtain ⟨x, rfl⟩ : ∃ x, bs = [[x]] := by
      have hlen : bs.length = 1 := by
        rw [hst.table.length, hsize]
        rfl
      obtain ⟨l, rfl⟩ := List.length_eq_one_iff.mp hlen
      have hl := congrArg UInt32.toNat (hst.count.symm.trans hcount)
      rw [List.flatten_singleton, UInt32.toNat_ofNat',
        Nat.mod_eq_of_lt (hfit l List.mem_cons_self)] at hl
      obtain ⟨x, rfl⟩ := List.length_eq_one_iff.mp hl
      exact ⟨x, rfl⟩
    have ht : Iterable (fun _ => False) _ h' w₂ FullSnap (fun _ => False) [[x]] :=
      (hst.iterable fun l hl hle => absurd (hfit l hl) (Nat.not_lt.mpr hle)).of_forall₂
        (List.forall₂_same.mpr fun _ _ => rfl)
        fun l hl m hm s hs => hm ▸ ⟨hs.perm (hfit l hl), hfit l hl⟩
    have haround : aroundCalls = .create :: .getnext 0 :: .getnext 0 ::
        (List.replicate (2 ^ 64 - 2) (.getnext 0) ++ [.getnext 0]) := by
      unfold aroundCalls
      with_reducible rfl
    generalize hN : 2 ^ 64 - 2 = N at haround
    refine ⟨h', w₂, x.item, hreach, hcount, ?_⟩
    rw [haround]
    exact ht.runs_around hw (by omega)

end Hashish
