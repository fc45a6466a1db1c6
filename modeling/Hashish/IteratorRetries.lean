import Hashish.IteratorArrays

/-!
# Iterations that run out of memory

When there is no memory for the copy of a bucket, `hi_iterator_getnext` returns an error, and the
caller may try again. The call has moved on to that bucket already, and the next one turns to the
bucket after it: the entries of the bucket are lost to the iteration.

* `Stores.runs_retry`: which buckets an iteration hands out whose errors are tried again.
* `retries_hand_out_all_iff`: it hands out all entries exactly when no copy fails.
-/

namespace Hashish

open Hashish.Lib

variable {δ : Type} {F : Fault → Prop} {w : World} {h : HiHandle δ} {bs : List (List (Stored δ))}

/-- Call `hi_iterator_getnext` until it returns `HI_ERR_NODATA`, whatever errors it returns before:
what was handed out. -/
def retry (t : HiHandle δ) : Nat → HiIterator δ → Prog (List (Item δ))
  | 0, _ => Prog.fault .nontermination
  | fuel + 1, i => do
    let (ret, next, i) ← hiIteratorGetnext t i
    if ret = hiErrNodata then pure []
    else do
      let items ← retry t fuel i
      pure (next.toList ++ items)

/-- How many of the buckets count as having entries. -/
def pending (bs : List (List (Stored δ))) : Nat := bs.countP fun l => decide (l.length % 2 ^ 32 ≠ 0)

/-- The copy of a bucket. -/
abbrev Copy (cmp : KeyCmp) : List (Stored δ) → List (Stored δ) → Prop := SnapOf cmp fun _ => False

/-- The copy of a bucket, or nothing of it. -/
def CopyOrNone (cmp : KeyCmp) (l s : List (Stored δ)) : Prop := Copy cmp l s ∨ s = []

/-! ## The next bucket -/

/-- Turning to the next of the buckets `cs`: all count as empty, or after some empty ones a bucket is
copied or cannot be copied. -/
inductive Turned (cmp : KeyCmp) (cs : List (List (Stored δ))) (i : HiIterator δ) (w w' : World)
    (r : Int × HiIterator δ) : Prop
  | nodata (hret : r.1 = hiErrNodata) (hempty : ∀ l ∈ cs, l.length % 2 ^ 32 = 0)
  | failed (es : List (List (Stored δ))) (l : List (Stored δ)) (ds : List (List (Stored δ))) (m : Nat)
      (hcs : cs = es ++ l :: ds) (hempty : ∀ l ∈ es, l.length % 2 ^ 32 = 0)
      (hne : l.length % 2 ^ 32 ≠ 0) (hret : r.1 = hiErrSystem)
      (hbucket : r.2.bucket = i.bucket + es.length) (ha : r.2.a = i.a) (hm : m < 3)
      (hrefused : w.Refused m w')
  | copied (es : List (List (Stored δ))) (l : List (Stored δ)) (ds : List (List (Stored δ)))
      (s : List (Stored δ)) (hcs : cs = es ++ l :: ds) (hempty : ∀ l ∈ es, l.length % 2 ^ 32 = 0)
      (hret : r.1 = 0) (hbucket : r.2.bucket = i.bucket + es.length) (hs : s ≠ [])
      (hn : r.2.a.nmemb = s.length) (ha : r.2.a.Shows (s.map some)) (hcopy : Copy cmp l s)
      (hserved : w.Served 3 w')

theorem Turned.cons {cmp : KeyCmp} {cs : List (List (Stored δ))} {i : HiIterator δ} {w w₁ w' : World}
    {r : Int × HiIterator δ} {l : List (Stored δ)} (hl : l.length % 2 ^ 32 = 0) (hw : w ≤ w₁)
    (hreq : w₁.requests = w.requests)
    (ht : Turned cmp cs { i with bucket := i.bucket + 1 } w₁ w' r) :
    Turned cmp (l :: cs) i w w' r := by
  have hmem : ∀ {es : List (List (Stored δ))}, (∀ m ∈ es, m.length % 2 ^ 32 = 0) →
      ∀ m ∈ l :: es, m.length % 2 ^ 32 = 0 := fun hes m hm =>
    (List.mem_cons.mp hm).elim (fun he => he ▸ hl) (hes m)
  have hzero : w.Served 0 w₁ := .zero hreq
  cases ht with
  | nodata hret hempty => exact .nodata hret (hmem hempty)
  | failed es m ds n hcs hempty hne hret hbucket ha hn hrefused =>
    refine .failed (l :: es) m ds n (by rw [hcs]; rfl) (hmem hempty) hne hret ?_ ha hn ?_
    · rw [hbucket, List.length_cons]
      exact Nat.add_right_comm _ _ _
    · exact Nat.zero_add n ▸ hzero.refused hw hrefused
  | copied es m ds s hcs hempty hret hbucket hs hn ha hcopy hserved =>
    refine .copied (l :: es) m ds s (by rw [hcs]; rfl) (hmem hempty) hret ?_ hs hn ha hcopy ?_
    · rw [hbucket, List.length_cons]
      exact Nat.add_right_comm _ _ _
    · exact Nat.zero_add 3 ▸ hzero.trans hw hserved

/-! ## What is handed out -/

/-- What is handed out of the rest `l` of a copy and of the buckets `cs` after it. All buckets are
copied exactly when the copies get their memory. -/
def HandsOut (cmp : KeyCmp) (l : List (Stored δ)) (cs : List (List (Stored δ))) (w : World)
    (items : List (Item δ)) : Prop :=
  ∃ ss, List.Forall₂ (CopyOrNone cmp) cs ss ∧ items = (l.reverse ++ handedOut ss).map Stored.item ∧
    (w.Serves (3 * pending cs) ↔ List.Forall₂ (Copy cmp) cs ss)

namespace HandsOut

variable {cmp : KeyCmp} {l : List (Stored δ)} {cs ds es : List (List (Stored δ))} {w' : World}
  {items : List (Item δ)}

theorem nil : HandsOut cmp ([] : List (Stored δ)) [] w [] :=
  ⟨[], .nil, rfl, iff_of_true (fun _ hi => absurd hi (Nat.not_lt_zero _)) .nil⟩

theorem pair {x : Stored δ} (ho : HandsOut cmp l cs w items) :
    HandsOut cmp (l ++ [x]) cs w (x.item :: items) := by
  obtain ⟨ss, hss, rfl, hiff⟩ := ho
  refine ⟨ss, hss, ?_, hiff⟩
  rw [List.reverse_append]
  rfl

/-- A bucket that counts as empty. -/
theorem empty (hl : l.length % 2 ^ 32 = 0) (ho : HandsOut cmp [] cs w items) :
    HandsOut cmp [] (l :: cs) w items := by
  obtain ⟨ss, hss, rfl, hiff⟩ := ho
  have hnil : Copy cmp l [] := SnapOf.nil hl
  refine ⟨[] :: ss, .cons (.inr rfl) hss, rfl, ?_⟩
  rw [List.forall₂_cons, and_iff_right hnil, ← hiff, pending,
    List.countP_cons_of_neg (by simpa using hl)]
  rfl

theorem empties (hes : ∀ l ∈ es, l.length % 2 ^ 32 = 0) (ho : HandsOut cmp [] cs w items) :
    HandsOut cmp [] (es ++ cs) w items := by
  induction es with
  | nil => exact ho
  | cons l es ih =>
    exact (ih fun m hm => hes m (List.mem_cons_of_mem _ hm)).empty (hes l List.mem_cons_self)

theorem pending_cons (hl : l.length % 2 ^ 32 ≠ 0) : pending (l :: cs) = pending cs + 1 :=
  List.countP_cons_of_pos (by simpa using hl)

/-- A bucket that cannot be copied is lost. -/
theorem failed (hl : l.length % 2 ^ 32 ≠ 0) {m : Nat} (hm : m < 3) (hrefused : w.Refused m w')
    (ho : HandsOut cmp [] cs w' items) : HandsOut cmp [] (l :: cs) w items := by
  obtain ⟨ss, hss, rfl, -⟩ := ho
  refine ⟨[] :: ss, .cons (.inr rfl) hss, rfl, iff_of_false ?_ ?_⟩
  · rw [pending_cons hl]
    exact hrefused.not_serves (by omega)
  · intro hall
    exact hl (List.forall₂_cons.mp hall).1.length.symm

theorem copied {s : List (Stored δ)} (hs : s ≠ []) (hcopy : Copy cmp l s) (hw : w ≤ w')
    (hserved : w.Served 3 w') (ho : HandsOut cmp s cs w' items) :
    HandsOut cmp [] (l :: cs) w items := by
  obtain ⟨ss, hss, rfl, hiff⟩ := ho
  have hl : l.length % 2 ^ 32 ≠ 0 := fun h₀ =>
    hs (List.length_eq_zero_iff.mp (hcopy.length.trans h₀))
  refine ⟨s :: ss, .cons (.inl hcopy) hss, rfl, ?_⟩
  rw [List.forall₂_cons, and_iff_right hcopy, ← hiff, pending_cons hl, Nat.mul_succ, Nat.add_comm]
  exact hserved.serves_add hw

/-- No request comes between. -/
theorem later (hw : w ≤ w') (hreq : w'.requests = w.requests) (ho : HandsOut cmp l cs w' items) :
    HandsOut cmp l cs w items := by
  obtain ⟨ss, hss, hitems, hiff⟩ := ho
  exact ⟨ss, hss, hitems, (World.Serves.of_requests hw hreq).symm.trans hiff⟩

end HandsOut

/-! ## The calls -/

/-- What is left of the copy that the iterator holds. -/
def HiIterator.Holds (i : HiIterator δ) (l : List (Stored δ)) : Prop :=
  i.a.nmemb = l.length ∧
    (l ≠ [] → ∃ r, i.a.Shows ((l ++ r).map some) ∧ (l ++ r).length < 2 ^ 64)

theorem HiIterator.Holds.runs_handOut {i : HiIterator δ} {l : List (Stored δ)} {x : Stored δ}
    (hi : i.Holds (l ++ [x])) : Runs F i.handOut w fun q w' =>
      q.1 = x.item ∧ q.2.bucket = i.bucket ∧ q.2.Holds l ∧ w' = w := by
  obtain ⟨hn, hshows⟩ := hi
  obtain ⟨r, ha, hlen⟩ := hshows (List.append_ne_nil_of_right_ne_nil l (List.cons_ne_nil x []))
  rw [List.length_append, List.length_singleton] at hn
  have hr : l ++ [x] ++ r = l ++ x :: r := List.append_assoc l [x] r
  rw [hr] at ha hlen
  have hlt : l.length + 1 < 2 ^ 64 := by
    rw [List.length_append, List.length_cons] at hlen
    omega
  exact Hashish.runs_handOut ha hn rfl hlt
    ⟨rfl, rfl, ⟨rfl, fun _ => ⟨x :: r, ha.with_nmemb _, hlen⟩⟩, rfl⟩

namespace Stores

variable (hs : Stores h w bs)
  (hF : ∀ l ∈ bs, 2 ^ 32 ≤ l.length → l.length % 2 ^ 32 ≠ 0 → F .badAddress)
include hs hF

theorem runs_getNextLoop {cs : List (List (Stored δ))} {i : HiIterator δ}
    (hcs : bs.drop i.bucket = cs) :
    Runs F (getNextLoop (snapshotOf h.collEng) h cs.length i) w fun r w' =>
      Turned h.keyCmp cs i w w' r := by
  induction cs generalizing i w with
  | nil => exact .nodata rfl nofun
  | cons l cs ih =>
    have hl : bs[i.bucket]? = some l := by
      rw [← List.head?_drop, hcs]
      rfl
    rw [List.length_cons, getNextLoop]
    refine Runs.bind (hs.runs_snapshot hl (hF l (List.mem_of_getElem? hl))) fun r w₁ hw₁ h₁ => ?_
    obtain ⟨rfl, hmod, hreq⟩ | ⟨rfl, hne, m, hm, hrefused⟩ | ⟨hr₀, hserved, s, hs₀, hn, ha, hcopy⟩ := h₁
    · dsimp only
      rw [if_neg (show ¬ hiErrNodata = 0 by decide), if_neg (not_not_intro rfl)]
      have hcs' : bs.drop (i.bucket + 1) = cs := by
        rw [← List.tail_drop, hcs]
        rfl
      refine (ih (hs.mono hw₁) (i := { i with bucket := i.bucket + 1 }) hcs').imp fun r w₂ h₂ => ?_
      exact h₂.cons hmod hw₁ hreq
    · dsimp only
      rw [if_neg (show ¬ hiErrSystem = 0 by decide), if_pos (show hiErrSystem ≠ hiErrNodata by decide)]
      exact .failed [] l cs m rfl nofun hne rfl rfl rfl hm hrefused
    · obtain ⟨ret, a⟩ := r
      dsimp only at hr₀ hn ha ⊢
      subst hr₀
      rw [if_pos rfl]
      exact .copied [] l cs s rfl nofun rfl rfl hs₀ hn ha hcopy hserved

/-- An iteration from the rest `l` of a copy on, with the buckets `cs` to come. -/
theorem runs_retry {fuel : Nat} {i : HiIterator δ} {l : List (Stored δ)}
    {cs : List (List (Stored δ))} (hi : i.Holds l) (hlt : i.bucket < bs.length)
    (hcs : bs.drop (i.bucket + 1) = cs)
    (hfuel : l.length + (cs.map fun m => m.length + 1).sum < fuel) :
    Runs F (retry h fuel i) w fun items _ => HandsOut h.keyCmp l cs w items := by
  induction fuel generalizing i l cs w with
  | zero => exact absurd hfuel (Nat.not_lt_zero _)
  | succ fuel ih =>
    rw [retry]
    refine runs_bind.mpr ?_
    rcases List.eq_nil_or_concat' l with rfl | ⟨l, x, rfl⟩
    · have hn : ¬ i.a.nmemb ≠ 0 := not_not_intro hi.1
      have hlen : bs.length < 2 ^ 64 := by
        rw [hs.table.length]
        exact h.tableSize.toNat_lt.trans (by decide)
      have hbucket : sizeT (i.bucket + 1) = i.bucket + 1 :=
        Nat.mod_eq_of_lt ((Nat.succ_le_of_lt hlt).trans_lt hlen)
      have hgo : h.tableSize.toNat - (i.bucket + 1) = cs.length := by
        rw [← hs.table.length, ← hcs, List.length_drop]
      unfold hiIteratorGetnext
      rw [if_neg hn, hbucket]
      refine runs_bind.mpr (runs_lhiBucketArrayFree fun w₁ hw₁ hreq₁ => ?_)
      rw [hs.getNextBucket_eq, getNext, hgo]
      refine Runs.bind ((hs.mono hw₁).runs_getNextLoop hF hcs) fun r w₂ hw₂ ht => ?_
      obtain ⟨ret, j⟩ := r
      -- A later iterator has the buckets after its own to go.
      have hdrop : ∀ {es ds : List (List (Stored δ))} {m : List (Stored δ)}, cs = es ++ m :: ds →
          j.bucket = i.bucket + 1 + es.length → bs.drop (j.bucket + 1) = ds ∧ j.bucket < bs.length := by
        rintro es ds m rfl hj
        constructor
        · rw [hj, Nat.add_assoc, ← List.drop_drop, hcs, ← List.drop_drop, List.drop_left]
          rfl
        · have hlen' := congrArg List.length hcs
          rw [List.length_drop, List.length_append, List.length_cons] at hlen'
          omega
      have hsum : ∀ {es ds : List (List (Stored δ))} {m : List (Stored δ)}, cs = es ++ m :: ds →
          m.length + (ds.map fun m => m.length + 1).sum < fuel := by
        rintro es ds m rfl
        rw [List.map_append, List.sum_append, List.map_cons, List.sum_cons] at hfuel
        omega
      cases ht with
      | nodata hret hempty =>
        dsimp only at hret ⊢
        rw [hret, if_neg (by decide), runs_pure, if_pos rfl]
        rw [← List.append_nil cs]
        exact HandsOut.nil.empties hempty
      | failed es m ds n hcs' hempty hne hret hj ha hm hrefused =>
        dsimp only at hret hj ha ⊢
        obtain ⟨hdrop', hlt'⟩ := hdrop hcs' hj
        rw [hret, if_neg (by decide), runs_pure]
        dsimp only
        rw [if_neg (show ¬ hiErrSystem = hiErrNodata by decide)]
        have hi' : j.Holds [] := ⟨by rw [ha]; exact hi.1, fun hne => (hne rfl).elim⟩
        have hfuel' : ([] : List (Stored δ)).length + (ds.map fun m => m.length + 1).sum < fuel :=
          (Nat.add_le_add_right (Nat.zero_le m.length) _).trans_lt (hsum hcs')
        refine runs_bind.mpr ((ih (hs.mono (hw₁.trans hw₂)) hi' hlt' hdrop' hfuel').imp
          fun items w₃ ho => ?_)
        rw [hcs']
        exact ((ho.failed hne hm hrefused).empties hempty).later hw₁ hreq₁
      | copied es m ds s hcs' hempty hret hj hs₀ hn' ha hcopy hserved =>
        dsimp only at hret hj hn' ha ⊢
        obtain ⟨hdrop', hlt'⟩ := hdrop hcs' hj
        obtain ⟨s, x, rfl⟩ := (List.eq_nil_or_concat' s).resolve_left hs₀
        have hle : s.length + 1 ≤ m.length := by
          simpa using hcopy.subperm.length_le
        have hlt₂ : (s ++ [x]).length < 2 ^ 64 := by
          rw [hcopy.length]
          exact (Nat.mod_lt _ (by decide)).trans (by decide)
        have hi' : j.Holds (s ++ [x]) :=
          ⟨hn', fun _ => ⟨[], by rwa [List.append_nil], by rwa [List.append_nil]⟩⟩
        rw [hret, if_pos rfl]
        refine Runs.bind hi'.runs_handOut fun q w₃ _ h₃ => ?_
        obtain ⟨item, k⟩ := q
        obtain ⟨rfl, hk, hi₃, rfl⟩ := h₃
        dsimp only at hk hi₃ ⊢
        rw [runs_pure]
        dsimp only
        rw [if_neg (show ¬ 0 = hiErrNodata by decide)]
        have hfuel' : s.length + (ds.map fun m => m.length + 1).sum < fuel :=
          (Nat.add_le_add_right (Nat.le_of_succ_le hle) _).trans_lt (hsum hcs')
        refine runs_bind.mpr ((ih (hs.mono (hw₁.trans hw₂)) hi₃ (hk ▸ hlt') (hk ▸ hdrop') hfuel').imp
          fun items w₄ ho => ?_)
        rw [hcs']
        exact ((ho.pair.copied hs₀ hcopy hw₂ hserved).empties hempty).later hw₁ hreq₁
    · have hn : i.a.nmemb ≠ 0 := by
        rw [hi.1, List.length_append]
        exact Nat.succ_ne_zero _
      unfold hiIteratorGetnext
      rw [if_pos hn]
      refine Runs.bind hi.runs_handOut fun q w₁ _ h₁ => ?_
      obtain ⟨item, j⟩ := q
      obtain ⟨rfl, hj, hi₁, rfl⟩ := h₁
      dsimp only at hj hi₁ ⊢
      rw [runs_pure]
      dsimp only
      rw [if_neg (show ¬ 0 = hiErrNodata by decide)]
      have hfuel' : l.length + (cs.map fun m => m.length + 1).sum < fuel := by
        rw [List.length_append, List.length_singleton] at hfuel
        omega
      exact runs_bind.mpr ((ih hs hi₁ (hj ▸ hlt) (hj ▸ hcs) hfuel').imp fun items w₂ ho => ho.pair)

end Stores

/-! ## Complete iterations -/

section Lengths

variable {cmp : KeyCmp} {ss : List (List (Stored δ))}

theorem CopyOrNone.length_le {l s : List (Stored δ)} (hs : CopyOrNone cmp l s) :
    s.length ≤ l.length := by
  rcases hs with hs | rfl
  · exact hs.subperm.length_le
  · exact Nat.zero_le _

theorem CopyOrNone.copy {l s : List (Stored δ)} (hs : CopyOrNone cmp l s)
    (hlen : s.length = l.length) : l.length < 2 ^ 32 ∧ Copy cmp l s := by
  rcases hs with hs | rfl
  · exact ⟨hlen ▸ hs.length ▸ Nat.mod_lt _ (by decide), hs⟩
  · have hzero : l.length = 0 := hlen.symm
    obtain rfl := List.length_eq_zero_iff.mp hzero
    exact ⟨show 0 < 2 ^ 32 by decide, SnapOf.nil rfl⟩

/-- When as much was handed out as there is, all buckets have been copied in full. -/
theorem forall₂_copy (hss : List.Forall₂ (CopyOrNone cmp) bs ss)
    (hlen : ss.flatten.length = bs.flatten.length) : Fits bs ∧ List.Forall₂ (Copy cmp) bs ss := by
  induction hss with
  | nil => exact ⟨nofun, .nil⟩
  | @cons l s bs ss hs hss ih =>
    have hle := hs.length_le
    have hle' : ss.flatten.length ≤ bs.flatten.length :=
      (forall₂_sum_le hss fun _ _ hs => hs.length_le).trans_eq List.length_flatten.symm
    rw [List.flatten_cons, List.flatten_cons, List.length_append, List.length_append] at hlen
    obtain ⟨hlt, hcopy⟩ := hs.copy (by omega)
    obtain ⟨hfits, hrest⟩ := ih (by omega)
    exact ⟨List.forall_mem_cons.mpr ⟨hlt, hfits⟩, .cons hcopy hrest⟩

theorem sum_succ (cs : List (List (Stored δ))) :
    (cs.map fun m => m.length + 1).sum = cs.flatten.length + cs.length := by
  induction cs with
  | nil => rfl
  | cons m cs ih =>
    rw [List.map_cons, List.sum_cons, ih, List.flatten_cons, List.length_append, List.length_cons]
    omega

/-- What a retried iteration hands out from its first copy on, against what there is. -/
theorem HandsOut.perm_iff {ss₀ : List (List (Stored δ))} {l : List (Stored δ)} {b : Nat}
    {items : List (Item δ)} (hss₀ : List.Forall₂ (Copy cmp) (bs.take b) (ss₀ ++ [l]))
    (hout : handedOut ss₀ = []) (ho : HandsOut cmp l (bs.drop b) w items) :
    items.Perm (bs.flatten.map Stored.item) ↔ Fits bs ∧ w.Serves (3 * pending (bs.drop b)) := by
  obtain ⟨ss, hss, rfl, hiff⟩ := ho
  have hitems : l.reverse ++ handedOut ss = handedOut (ss₀ ++ [l] ++ ss) := by
    have happend : handedOut (ss₀ ++ [l] ++ ss) = handedOut (ss₀ ++ [l]) ++ handedOut ss := by
      simp [handedOut]
    rw [happend, handedOut_concat, hout, List.nil_append]
  have hjoin : ∀ {R : List (Stored δ) → List (Stored δ) → Prop},
      List.Forall₂ R (bs.take b) (ss₀ ++ [l]) → List.Forall₂ R (bs.drop b) ss →
      List.Forall₂ R bs (ss₀ ++ [l] ++ ss) := by
    intro R h₀ h₁
    have happend : List.Forall₂ R (bs.take b ++ bs.drop b) (ss₀ ++ [l] ++ ss) :=
      List.rel_append h₀ h₁
    rwa [List.take_append_drop] at happend
  rw [hitems]
  constructor
  · intro hperm
    have hlen := hperm.length_eq
    rw [List.length_map, List.length_map, length_handedOut] at hlen
    obtain ⟨hfits, hcopy⟩ := forall₂_copy (hjoin (hss₀.imp fun _ _ => .inl) hss) hlen
    rw [← List.take_append_drop b bs] at hcopy
    refine ⟨hfits, hiff.mpr ?_⟩
    have hdrop := List.forall₂_drop (bs.take b).length hcopy
    rwa [List.drop_left, hss₀.length_eq, List.drop_left] at hdrop
  · rintro ⟨hfits, hserves⟩
    have hcopy := hjoin hss₀ (hiff.mp hserves)
    exact ((handedOut_perm _).trans (Engine.Snap.perm_flatten hfits hcopy)).map _

end Lengths

/-- Retried after every error, an iteration hands out every entry exactly once if and only if there is
memory for the copies of all buckets to come, and no counter of a bucket has wrapped. -/
theorem retries_hand_out_all_iff {s : HiInitSet} {u : UserSettings}
    (hs : lhiSetSanityCheck s = .ok u) (he : plainEngine u.collEng) (hr : Reached s h w)
    {i : HiIterator δ} {w₁ : World} (hcreate : (hiIteratorCreate h).run w = .ok (.ok i, w₁)) :
    ∃ bs, Stores h w₁ bs ∧ ∀ fuel, bs.flatten.length + bs.length < fuel →
      (Total (retry h fuel i) w₁ (fun items _ => items.Perm (bs.flatten.map Stored.item)) ↔
        Fits bs ∧ w₁.Serves (3 * pending (bs.drop (i.bucket + 1)))) := by
  obtain ⟨-, -, bs, hst⟩ := hr.stores hs he
  have hst₁ := hst.mono ((hiIteratorCreate h).grows hcreate)
  refine ⟨bs, hst₁, fun fuel hfuel => ?_⟩
  have hit : Iterable (fun _ => True) (snapshotOf h.collEng) h w (Copy h.keyCmp) (fun _ => False) bs :=
    hst.iterable fun _ _ _ _ => trivial
  -- The first copy was taken when the iterator was created.
  obtain ⟨hlt, ss₀, l, hss₀, hout, hi⟩ : i.bucket < bs.length ∧ ∃ ss₀ l,
      List.Forall₂ (Copy h.keyCmp) (bs.take (i.bucket + 1)) (ss₀ ++ [l]) ∧ handedOut ss₀ = [] ∧
        i.Holds l := by
    rcases hit.runs_hiIteratorCreate.of_run hcreate with ⟨j, he, hat, -⟩ | ⟨he, -⟩ | ⟨he, -⟩
    · cases he
      obtain ⟨hlt, ss₀, l, r, hss₀, hdone, ha, hn⟩ := hat.resolve_right id
      obtain ⟨hout, hr⟩ := List.append_eq_nil_iff.mp hdone.symm
      rw [List.reverse_eq_nil_iff] at hr
      subst hr
      rw [List.append_nil] at hss₀
      refine ⟨hlt, ss₀, l, hss₀, hout, hn, fun _ => ⟨[], ha, ?_⟩⟩
      obtain ⟨m, -, hcopy⟩ := forall₂_mem hss₀.flip (List.mem_append_right ss₀ List.mem_cons_self)
      rw [List.append_nil, hcopy.length]
      exact (Nat.mod_lt _ (by decide)).trans (by decide)
    · cases he
    · cases he
  have hfuel' : l.length + ((bs.drop (i.bucket + 1)).map fun m => m.length + 1).sum < fuel := by
    have hle := forall₂_sum_le hss₀ (n := List.length) fun _ _ hs => hs.subperm.length_le
    rw [← List.length_flatten, List.flatten_append, List.length_append, List.flatten_singleton] at hle
    have hsplit : bs.flatten.length = (bs.take (i.bucket + 1)).flatten.length +
        (bs.drop (i.bucket + 1)).flatten.length := by
      rw [← List.length_append, ← List.flatten_append, List.take_append_drop]
    rw [sum_succ, List.length_drop]
    omega
  constructor
  · intro htotal
    obtain ⟨items, w₂, hrun, hperm⟩ := total_iff.mp htotal
    have ho := (hst₁.runs_retry (F := fun _ => True) (fun _ _ _ _ => trivial) hi hlt rfl
      hfuel').of_run hrun
    exact (ho.perm_iff hss₀ hout).mp hperm
  · rintro ⟨hfits, hserves⟩
    refine (hst₁.runs_retry (fun m hm hge _ => ?_) hi hlt rfl hfuel').imp fun items w₂ ho => ?_
    · exact absurd hge (Nat.not_le_of_lt (hfits m hm))
    · exact (ho.perm_iff hss₀ hout).mpr ⟨hfits, hserves⟩

/-- A table of two buckets, whose keys are their own hashes. -/
def twoBuckets : HiInitSet :=
  { oneList with tableSize := 2, hashFunc := some ⟨0, fun key _ => UInt32.ofNat (readInt 8 key)⟩ }

/-- Two entries in two buckets, and memory for the second copy. -/
theorem retries_hand_out_all_iff_two :
    ∃ (h : HiHandle String) (w : World) (i : HiIterator String) (w₁ : World) (bs : _) (fuel : Nat),
      Reached twoBuckets h w ∧ h.noObjects = 2 ∧ (hiIteratorCreate h).run w = .ok (.ok i, w₁) ∧
      Stores h w₁ bs ∧
      Total (retry h fuel i) w₁ fun items _ => items.Perm (bs.flatten.map Stored.item) := by
  obtain ⟨h, w₁, rs, h', w₂, i, w₃, hcreate, hcalls, hcount, hiter, hreq, hsucc⟩ :
      ∃ (h : HiHandle String) (w₁ : World) (rs : _) (h' : HiHandle String) (w₂ : World)
          (i : HiIterator String) (w₃ : World),
        (hiCreate twoBuckets).run (World.start fun _ _ => 0) = .ok (.ok h, w₁) ∧
        (Prog.calls TableOp.call [.map (.insert ⟨[0, 0], by decide⟩ "zero"),
          .map (.insert ⟨[1, 0], by decide⟩ "one")] h).run w₁ = .ok ((rs, h'), w₂) ∧
        h'.noObjects = 2 ∧ (hiIteratorCreate h').run w₂ = .ok (.ok i, w₃) ∧
        w₃.requests < 2 ^ 32 ∧ w₃.AllocsSucceed := by
    refine ⟨_, _, _, _, _, _, _, rfl, rfl, rfl, rfl, by decide, fun n => ⟨_, rfl⟩⟩
  have hreach : Reached twoBuckets h' w₂ := ⟨World.start fun _ _ => 0, h, w₁, _, rs, hcreate,
    Meets.of_forall fun _ _ _ _ => trivial, hcalls⟩
  obtain ⟨bs, hst, hiff⟩ :=
    retries_hand_out_all_iff (s := twoBuckets) rfl (.inl (.inl rfl)) hreach hiter
  refine ⟨h', w₂, i, w₃, bs, _, hreach, hcount, hiter, hst, (hiff _ (Nat.lt_succ_self _)).mpr
    ⟨fun l hl => (hst.length_le hl).trans_lt hreq, fun n _ => hsucc _⟩⟩

/-- The copy of the second bucket fails once, and its entry is never handed out. -/
theorem failed_copy_loses_bucket :
    ∃ (h : HiHandle String) (w₁ : World) (rs : _) (h' : HiHandle String) (w₂ : World)
        (i i₁ i₂ i₃ : HiIterator String) (item : Item String) (w₃ w₄ w₅ w₆ : World),
      (hiCreate twoBuckets).run (World.startFailing 13) = .ok (.ok h, w₁) ∧
      (Prog.calls TableOp.call [.map (.insert ⟨[0, 0], by decide⟩ "zero"),
        .map (.insert ⟨[1, 0], by decide⟩ "one")] h).run w₁ = .ok ((rs, h'), w₂) ∧
      rs.map Result.status = [success, success] ∧
      (hiIteratorCreate h').run w₂ = .ok (.ok i, w₃) ∧
      (hiIteratorGetnext h' i).run w₃ = .ok ((success, some item, i₁), w₄) ∧ item.data = "zero" ∧
      (hiIteratorGetnext h' i₁).run w₄ = .ok ((hiErrSystem, none, i₂), w₅) ∧
      (hiIteratorGetnext h' i₂).run w₅ = .ok ((hiErrNodata, none, i₃), w₆) :=
  ⟨_, _, _, _, _, _, _, _, _, _, _, _, _, _, rfl, rfl, rfl, rfl, rfl, rfl, rfl, rfl⟩

end Hashish
