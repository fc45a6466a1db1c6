import Hashish.Engine
import Mathlib.Data.List.Flatten

/-!
# Iterations over a table

How far an iteration has come: the buckets that were visited, what is left of the last
snapshot, and the pairs handed out so far. What a snapshot has to do with its bucket is
a parameter `P`. `Iterable` says what the function that takes the snapshots does; a snapshot
that is `Bad` cannot be handed out.

* `Iterable.runs_hiIteratorCreate`, `Iterable.runs_hiIteratorReset`: the start.
* `Iterable.runs_hiIteratorGetnext`: one more pair, or the end, when the snapshots of all
  buckets were handed out.
* `Iterable.runs_hiIteratorGetnext_end`: at the end there is no data, again and again.
* `Engine.iterable`: the engines take snapshots that are not bad.
-/

namespace Hashish

open Hashish.Lib

variable {δ α : Type} {P : α → List (Stored δ) → Prop} {bs : List α}
  {t : HiHandle δ} {w : World} {F : Fault → Prop}

/-- The order in which the snapshots of the buckets are handed out. -/
def handedOut (ss : List (List (Stored δ))) : List (Stored δ) := (ss.map List.reverse).flatten

@[simp] theorem handedOut_concat (ss : List (List (Stored δ))) (s : List (Stored δ)) :
    handedOut (ss ++ [s]) = handedOut ss ++ s.reverse := by
  simp [handedOut]

/-- The iterator has handed out `done`: the snapshots `ss` of the buckets before its own, and of the
snapshot of its own bucket the end `r`. -/
def IterAt (P : α → List (Stored δ) → Prop) (bs : List α) (i : HiIterator δ)
    (done : List (Stored δ)) : Prop :=
  i.bucket < bs.length ∧ ∃ ss l r, List.Forall₂ P (bs.take (i.bucket + 1)) (ss ++ [l ++ r]) ∧
    done = handedOut ss ++ r.reverse ∧ i.a.Shows ((l ++ r).map some) ∧ i.a.nmemb = l.length

/-- All snapshots were handed out. -/
def AllOut (P : α → List (Stored δ) → Prop) (bs : List α) (done : List (Stored δ)) : Prop :=
  ∃ ss, List.Forall₂ P bs ss ∧ done = handedOut ss

/-- The iterator has come to the end. -/
def IterEnd (bs : List α) (i : HiIterator δ) : Prop :=
  bs.length ≤ i.bucket ∧ i.a.nmemb = 0

/-- Where an iteration stands after it has turned to the next bucket: at a pair, or at the end. -/
def NextBucket (P : α → List (Stored δ) → Prop) (bs : List α) (a : BucketArray δ)
    (done : List (Stored δ)) (w : World) (r : Int × HiIterator δ) : Prop :=
  (r.1 = 0 ∧ IterAt P bs r.2 done ∧ r.2.a.nmemb ≠ 0) ∨
  (r.1 = hiErrNodata ∧ AllOut P bs done ∧ r.2.bucket = bs.length ∧ r.2.a = a) ∨
  (r.1 = hiErrSystem ∧ ¬ w.AllocsSucceed)

theorem forall₂_take_succ {β : Type} {R : α → β → Prop} {xs : List α} {ys : List β} {b : Nat}
    {x : α} {y : β} (h : List.Forall₂ R (xs.take b) ys) (hx : xs[b]? = some x) (hxy : R x y) :
    List.Forall₂ R (xs.take (b + 1)) (ys ++ [y]) := by
  obtain ⟨hb, rfl⟩ := List.getElem?_eq_some_iff.mp hx
  rw [List.take_succ_eq_append_getElem hb]
  exact List.rel_append h (.cons hxy .nil)

theorem forall₂_sum_le {xs : List α} {ys : List (List (Stored δ))} {n : α → Nat}
    (h : List.Forall₂ P xs ys) (hP : ∀ l s, P l s → s.length ≤ n l) :
    ys.flatten.length ≤ (xs.map n).sum := by
  induction h with
  | nil => exact Nat.le_refl 0
  | cons hp _ ih =>
    have := hP _ _ hp
    simp only [List.flatten_cons, List.length_append, List.map_cons, List.sum_cons]
    omega

theorem length_handedOut (ss : List (List (Stored δ))) :
    (handedOut ss).length = ss.flatten.length := by
  induction ss with
  | nil => rfl
  | cons s ss ih => simpa [handedOut] using ih

theorem handedOut_perm (ss : List (List (Stored δ))) : (handedOut ss).Perm ss.flatten := by
  induction ss with
  | nil => exact .nil
  | cons s ss ih => exact (List.reverse_perm s).append ih

/-- No more pairs are handed out than the snapshots can hold. -/
theorem IterAt.length_le {i : HiIterator δ} {done : List (Stored δ)} {n : α → Nat}
    (h : IterAt P bs i done) (hP : ∀ l s, P l s → s.length ≤ n l) :
    done.length ≤ (bs.map n).sum := by
  obtain ⟨hlt, ss, l, r, hss, rfl, hrest⟩ := h
  have hsum := forall₂_sum_le hss hP
  have hle : ((bs.take (i.bucket + 1)).map n).sum ≤ (bs.map n).sum := by
    conv_rhs => rw [← List.take_append_drop (i.bucket + 1) bs, List.map_append, List.sum_append]
    omega
  simp only [List.flatten_append, List.flatten_singleton, List.length_append] at hsum
  simp only [List.length_append, length_handedOut, List.length_reverse]
  omega

section Buckets

variable {P : List (Stored δ) → List (Stored δ) → Prop} {bs : List (List (Stored δ))}

/-- Reordering the buckets of the table does not disturb an iteration that only knows them up to
their order. -/
theorem IterAt.perm {i : HiIterator δ} {done : List (Stored δ)} {bs' : List (List (Stored δ))}
    (h : IterAt P bs i done) (hbs : List.Forall₂ List.Perm bs' bs)
    (hP : ∀ l l' s, l'.Perm l → P l s → P l' s) : IterAt P bs' i done := by
  obtain ⟨hlt, ss, l, r, hss, hrest⟩ := h
  refine ⟨hbs.length_eq ▸ hlt, ss, l, r, ?_, hrest⟩
  have htake : List.Forall₂ List.Perm (bs'.take (i.bucket + 1)) (bs.take (i.bucket + 1)) :=
    List.forall₂_take _ hbs
  generalize bs'.take (i.bucket + 1) = xs at htake ⊢
  generalize bs.take (i.bucket + 1) = ys at htake hss
  generalize ss ++ [l ++ r] = zs at hss
  induction hss generalizing xs with
  | nil => cases htake; exact .nil
  | cons hp _ ih =>
    cases htake with
    | cons hx hxs => exact .cons (hP _ _ _ hx hp) (ih _ hxs)

theorem IterAt.mem {i : HiIterator δ} {done : List (Stored δ)} (h : IterAt P bs i done)
    (hP : ∀ l s, P l s → ∀ x ∈ s, x ∈ l) {x : Stored δ} (hx : x ∈ done) : x ∈ bs.flatten := by
  obtain ⟨hlt, ss, l, r, hss, rfl, hrest⟩ := h
  have hsub : ∀ y ∈ (ss ++ [l ++ r]).flatten, y ∈ (bs.take (i.bucket + 1)).flatten := by
    generalize bs.take (i.bucket + 1) = xs at hss
    generalize ss ++ [l ++ r] = ys at hss
    induction hss with
    | nil => simp
    | cons hp _ ih =>
      intro y hy
      rcases List.mem_append.mp hy with hy | hy
      · exact List.mem_append_left _ (hP _ _ hp y hy)
      · exact List.mem_append_right _ (ih y hy)
  obtain ⟨m, hm, hxm⟩ := List.mem_flatten.mp (hsub x (by
    simp only [handedOut, List.mem_append, List.mem_flatten, List.mem_map, List.mem_reverse,
      List.flatten_append, List.flatten_singleton] at hx ⊢
    rcases hx with ⟨_, ⟨s, hs, rfl⟩, hx⟩ | hx
    · exact .inl ⟨s, hs, List.mem_reverse.mp hx⟩
    · exact .inr (.inr hx)))
  exact List.mem_flatten.mpr ⟨m, List.mem_of_mem_take hm, hxm⟩

/-- Snapshots with all pairs of their buckets are handed out in full. -/
theorem flatten_subperm {xs : List (List (Stored δ))} {ss : List (List (Stored δ))}
    (h : List.Forall₂ P xs ss) (hP : ∀ l s, P l s → s.Subperm l) : ss.flatten.Subperm xs.flatten := by
  induction h with
  | nil => exact .refl _
  | cons hs _ ih =>
    exact ((List.subperm_append_right _).mpr (hP _ _ hs)).trans ((List.subperm_append_left _).mpr ih)

theorem AllOut.perm {done : List (Stored δ)} (h : AllOut P bs done)
    (hP : ∀ l s, P l s → s.Perm l) : done.Perm bs.flatten := by
  obtain ⟨ss, hss, rfl⟩ := h
  exact (handedOut_perm ss).trans (List.Perm.flatten_congr (hss.imp hP).flip)

/-- With such snapshots no pair is handed out twice. -/
theorem IterAt.subperm {i : HiIterator δ} {done : List (Stored δ)} (h : IterAt P bs i done)
    (hP : ∀ l s, P l s → s.Subperm l) : done.Subperm bs.flatten := by
  obtain ⟨-, ss, l, r, hss, rfl, -⟩ := h
  have hout : (handedOut ss ++ r.reverse).Subperm (ss ++ [l ++ r]).flatten := by
    rw [List.flatten_append, List.flatten_singleton]
    refine ((handedOut_perm ss).append r.reverse_perm).subperm.trans ?_
    exact ((List.Sublist.refl _).append (List.sublist_append_right l r)).subperm
  exact (hout.trans (flatten_subperm hss hP)).trans (List.take_sublist _ bs).flatten.subperm

end Buckets

/-! ## The next bucket -/

theorem runs_lhiBucketArrayFree {a : BucketArray δ} {Q : BucketArray δ → World → Prop}
    (h : ∀ w', w ≤ w' → w'.requests = w.requests →
      Q { a with data := .null, keys := .null, keysLength := .null } w') :
    Runs F (lhiBucketArrayFree a) w Q := by
  unfold lhiBucketArrayFree
  refine runs_bind.mpr (runs_free fun w₁ hw₁ hn₁ => ?_)
  refine runs_bind.mpr (runs_free fun w₂ hw₂ hn₂ => ?_)
  refine runs_bind.mpr (runs_free fun w₃ hw₃ hn₃ => ?_)
  exact h w₃ (hw₁.trans (hw₂.trans hw₃)) (hn₃.trans (hn₂.trans hn₁))

/-- What taking a snapshot of a bucket comes to: nothing to copy, no memory, the snapshot, or one that
is bad. -/
def SnapshotEnd (P : α → List (Stored δ) → Prop) (Bad : BucketArray δ → Prop) (l : α)
    (a : BucketArray δ) (w : World) (r : Int × BucketArray δ) : Prop :=
  (r = (hiErrNodata, a) ∧ P l []) ∨
  (r = (hiErrSystem, a) ∧ ¬ w.AllocsSucceed) ∨
  (r.1 = 0 ∧ ∃ s, s ≠ [] ∧ r.2.nmemb = s.length ∧ r.2.Shows (s.map some) ∧ P l s) ∨
  (r.1 = 0 ∧ r.2.nmemb ≠ 0 ∧ Bad r.2)

/-- From the world `w` on, the iterators of the table take the snapshots `P` of its buckets. -/
structure Iterable (F : Fault → Prop) (toArray : ToArray δ) (t : HiHandle δ) (w : World)
    (P : α → List (Stored δ) → Prop) (Bad : BucketArray δ → Prop) (bs : List α) : Prop where
  length : bs.length = t.tableSize.toNat
  next : ∀ err i, getNextBucket err t i = getNext toArray t i
  snapshot : ∀ {w'}, w ≤ w' → ∀ {b : Nat} {l : α}, bs[b]? = some l → ∀ a,
    Runs F (toArray t b a) w' fun r _ => SnapshotEnd P Bad l a w' r
  bad : ∀ {i : HiIterator δ} {w' : World}, Bad i.a → Runs F i.handOut w' fun _ _ => False

namespace Iterable

variable {toArray : ToArray δ} {Bad : BucketArray δ → Prop}

theorem mono (hi : Iterable F toArray t w P Bad bs) {w' : World} (hw : w ≤ w') :
    Iterable F toArray t w' P Bad bs :=
  ⟨hi.length, hi.next, fun hw' => hi.snapshot (hw.trans hw'), hi.bad⟩

/-- What is known of the snapshots can be said of other buckets. -/
theorem of_forall₂ {β : Type} {R : α → β → Prop} {Q : β → List (Stored δ) → Prop} {cs : List β}
    (hi : Iterable F toArray t w P Bad bs) (hbs : List.Forall₂ R bs cs)
    (hQ : ∀ l ∈ bs, ∀ m, R l m → ∀ s, P l s → Q m s) : Iterable F toArray t w Q Bad cs where
  length := hbs.length_eq ▸ hi.length
  next := hi.next
  bad := hi.bad
  snapshot {w'} hw {b m} hm a := by
    obtain ⟨hlt, rfl⟩ := List.getElem?_eq_some_iff.mp hm
    have hltb : b < bs.length := hbs.length_eq ▸ hlt
    have hl : bs[b]? = some bs[b] := List.getElem?_eq_getElem hltb
    have hsnap := hQ _ (List.getElem_mem hltb) _ ((List.forall₂_iff_get.mp hbs).2 b hltb hlt)
    refine (hi.snapshot hw hl a).imp fun r _ h => ?_
    rcases h with ⟨hr, hp⟩ | hs | ⟨hr, s, hs₀, hn, ha, hp⟩ | hbad
    · exact .inl ⟨hr, hsnap _ hp⟩
    · exact .inr (.inl hs)
    · exact .inr (.inr (.inl ⟨hr, s, hs₀, hn, ha, hsnap _ hp⟩))
    · exact .inr (.inr (.inr hbad))

/-- The loop goes on to the next bucket that does not count as empty. -/
theorem runs_getNextLoop (ht : Iterable F toArray t w P Bad bs) {n : Nat} {i : HiIterator δ}
    (ss : List (List (Stored δ))) (hn : i.bucket + n = bs.length)
    (hss : List.Forall₂ P (bs.take i.bucket) ss) :
    Runs F (getNextLoop toArray t n i) w fun r _ =>
      NextBucket P bs i.a (handedOut ss) w r ∨ (r.1 = 0 ∧ r.2.a.nmemb ≠ 0 ∧ Bad r.2.a) := by
  induction n generalizing i ss w with
  | zero =>
    rw [List.take_of_length_le (by omega)] at hss
    exact .inl (.inr (.inl ⟨rfl, ⟨ss, hss, rfl⟩, hn, rfl⟩))
  | succ n ih =>
    have hlt : i.bucket < bs.length := by omega
    have hl : bs[i.bucket]? = some bs[i.bucket] := List.getElem?_eq_getElem hlt
    rw [getNextLoop]
    refine Runs.bind (ht.snapshot le_rfl hl i.a) fun r w₁ hw₁ h₁ => ?_
    rcases h₁ with ⟨rfl, hnil⟩ | ⟨rfl, hs⟩ | ⟨hr₀, s, hs₀, hn', ha, hsnap⟩ | ⟨hr₀, h₀, hbad⟩
    · dsimp only
      rw [if_neg (show ¬ hiErrNodata = 0 by decide), if_neg (not_not_intro rfl)]
      have hnext := ih (ht.mono hw₁) (i := { i with bucket := i.bucket + 1 }) (ss ++ [[]])
        (show i.bucket + 1 + n = _ by omega) (forall₂_take_succ hss hl hnil)
      refine hnext.imp fun r w₂ h₂ => h₂.imp_left fun h₂ => ?_
      simp only [handedOut_concat, List.reverse_nil, List.append_nil] at h₂
      rcases h₂ with h₂ | h₂ | h₂
      · exact .inl h₂
      · exact .inr (.inl h₂)
      · exact .inr (.inr ⟨h₂.1, fun hs => h₂.2 (hs.mono hw₁)⟩)
    · dsimp only
      rw [if_neg (show ¬ hiErrSystem = 0 by decide), if_pos (show hiErrSystem ≠ hiErrNodata by decide)]
      exact .inl (.inr (.inr ⟨rfl, hs⟩))
    · obtain ⟨ret, a⟩ := r
      simp only at hr₀ hn' ha
      subst hr₀
      dsimp only
      rw [if_pos rfl]
      refine .inl (.inl ⟨rfl, ⟨hlt, ss, s, [], ?_, by simp, by simpa using ha, hn'⟩, ?_⟩)
      · exact forall₂_take_succ hss hl (by simpa using hsnap)
      · show a.nmemb ≠ 0
        rw [hn']
        simpa using hs₀
    · obtain ⟨ret, a⟩ := r
      simp only at hr₀ h₀ hbad
      subst hr₀
      dsimp only
      rw [if_pos rfl]
      exact .inr ⟨rfl, h₀, hbad⟩

theorem runs_getNextBucket (ht : Iterable F toArray t w P Bad bs) {err : Int} {i : HiIterator δ}
    (ss : List (List (Stored δ))) (hb : i.bucket ≤ bs.length)
    (hss : List.Forall₂ P (bs.take i.bucket) ss) :
    Runs F (getNextBucket err t i) w fun r _ =>
      NextBucket P bs i.a (handedOut ss) w r ∨ (r.1 = 0 ∧ r.2.a.nmemb ≠ 0 ∧ Bad r.2.a) := by
  rw [ht.next]
  refine ht.runs_getNextLoop ss ?_ hss
  rw [← ht.length]
  omega

/-! ## The interface -/

theorem runs_hiIteratorCreate (ht : Iterable F toArray t w P Bad bs) :
    Runs F (hiIteratorCreate t) w fun r _ =>
      (∃ i, r = .ok i ∧ (IterAt P bs i [] ∨ Bad i.a) ∧ i.a.nmemb ≠ 0) ∨
      (r = .error hiErrNodata ∧ AllOut P bs []) ∨
      (r = .error hiErrSystem ∧ ¬ w.AllocsSucceed) := by
  unfold hiIteratorCreate
  rw [runs_bind]
  refine runs_malloc (fun w₁ _ _ hs => .inr (.inr ⟨rfl, hs⟩)) fun junk w₁ hw₁ _ _ => ?_
  refine Runs.bind ((ht.mono hw₁).runs_getNextBucket [] (Nat.zero_le _) .nil) fun r w₂ hw₂ h₂ => ?_
  obtain ⟨ret, i⟩ := r
  dsimp only at h₂ ⊢
  rcases h₂ with (⟨rfl, hi, h₀⟩ | ⟨rfl, ho, -⟩ | ⟨rfl, hs⟩) | ⟨rfl, h₀, hbad⟩
  · rw [if_pos rfl]
    exact .inl ⟨i, rfl, .inl hi, h₀⟩
  · rw [if_neg (show ¬ hiErrNodata = 0 by decide)]
    exact runs_bind.mpr (runs_free fun w₃ _ _ => .inr (.inl ⟨rfl, ho⟩))
  · rw [if_neg (show ¬ hiErrSystem = 0 by decide)]
    exact runs_bind.mpr (runs_free fun w₃ _ _ => .inr (.inr ⟨rfl, fun h => hs (h.mono hw₁)⟩))
  · rw [if_pos rfl]
    exact .inl ⟨i, rfl, .inr hbad, h₀⟩

theorem runs_hiIteratorReset (ht : Iterable F toArray t w P Bad bs) {i : HiIterator δ} :
    Runs F (hiIteratorReset t i) w fun r _ =>
      (r.1 = 0 ∧ (IterAt P bs r.2 [] ∨ Bad r.2.a) ∧ r.2.a.nmemb ≠ 0) ∨
      (r.1 = hiErrNodata ∧ AllOut P bs []) ∨
      (r.1 = hiErrSystem ∧ ¬ w.AllocsSucceed) := by
  unfold hiIteratorReset
  refine runs_bind.mpr (runs_lhiBucketArrayFree fun w₁ hw₁ _ => ?_)
  refine ((ht.mono hw₁).runs_getNextBucket [] (Nat.zero_le _) .nil).imp ?_
  rintro r w₂ ((⟨h₀, hi, hn⟩ | ⟨h₀, ho, -⟩ | ⟨h₀, hs⟩) | ⟨h₀, hn, hbad⟩)
  · exact .inl ⟨h₀, .inl hi, hn⟩
  · exact .inr (.inl ⟨h₀, ho⟩)
  · exact .inr (.inr ⟨h₀, fun h => hs (h.mono hw₁)⟩)
  · exact .inl ⟨h₀, .inr hbad, hn⟩

/-- Handing out the last pair of a snapshot that is not exhausted. -/
theorem runs_handOut (ht : Iterable F toArray t w P Bad bs) {i : HiIterator δ}
    {done : List (Stored δ)} (hi : IterAt P bs i done ∨ Bad i.a) (h₀ : i.a.nmemb ≠ 0)
    (hPlen : ∀ l s, P l s → s.length < 2 ^ 64) :
    Runs F i.handOut w fun r _ => ∃ x, r.1 = x.item ∧ IterAt P bs r.2 (done ++ [x]) := by
  rcases hi with ⟨hlt, ss, l, r, hss, hdone, ha, hn⟩ | hbad
  · obtain ⟨l, x, rfl⟩ : ∃ l' x, l = l' ++ [x] := by
      rcases List.eq_nil_or_concat l with rfl | ⟨l', x, rfl⟩
      · exact (h₀ hn).elim
      · exact ⟨l', x, List.concat_eq_append⟩
    have hjs : (l ++ [x] ++ r).length < 2 ^ 64 := by
      have hlast := List.forall₂_iff_get.mp hss
      refine hPlen _ _ (hlast.2 ss.length ?_ ?_ |> fun h => by simpa using h)
      · rw [hlast.1]; simp
      · simp
    refine Hashish.runs_handOut (l := l) (r := r) (x := x) (m := l.length)
      (by simpa using ha) (by simpa using hn) rfl (by simp at hjs; omega) ?_
    exact ⟨x, rfl, hlt, ss, l, x :: r, by simpa using hss, by simp [hdone],
      BucketArray.Shows.with_nmemb (by simpa using ha) _, rfl⟩
  · exact (ht.bad hbad).imp fun _ _ h => h.elim

/-- A call that finds its snapshot exhausted turns to the next bucket, `b`. The counter of buckets is of
type `size_t`. -/
theorem runs_hiIteratorGetnext_turn (ht : Iterable F toArray t w P Bad bs) {i : HiIterator δ}
    {b : Nat} {ss : List (List (Stored δ))} (h₀ : i.a.nmemb = 0) (hbucket : sizeT (i.bucket + 1) = b)
    (hb : b ≤ bs.length) (hss : List.Forall₂ P (bs.take b) ss)
    (hPlen : ∀ l s, P l s → s.length < 2 ^ 64) :
    Runs F (hiIteratorGetnext t i) w fun r _ =>
      (∃ x, r.1 = 0 ∧ r.2.1 = some x.item ∧ IterAt P bs r.2.2 (handedOut ss ++ [x])) ∨
      (r.1 = hiErrNodata ∧ r.2.1 = none ∧ AllOut P bs (handedOut ss) ∧ IterEnd bs r.2.2 ∧
        r.2.2.bucket = bs.length) ∨
      (r.1 = hiErrSystem ∧ r.2.1 = none ∧ ¬ w.AllocsSucceed) := by
  unfold hiIteratorGetnext
  rw [if_neg (by simpa using h₀), hbucket]
  refine runs_bind.mpr (runs_lhiBucketArrayFree fun w₁ hw₁ _ => ?_)
  refine Runs.bind ((ht.mono hw₁).runs_getNextBucket
    (i := { i with
      bucket := b
      a := { i.a with data := .null, keys := .null, keysLength := .null } }) ss hb hss)
    fun q w₂ hw₂ h₂ => ?_
  obtain ⟨ret, j⟩ := q
  -- A snapshot was taken, and its last pair is handed out.
  have hfound : (IterAt P bs j (handedOut ss) ∨ Bad j.a) → j.a.nmemb ≠ 0 →
      Runs F (j.handOut >>= fun q => pure ((0 : Int), some q.1, q.2)) w₂ fun r _ =>
      (∃ x, r.1 = 0 ∧ r.2.1 = some x.item ∧ IterAt P bs r.2.2 (handedOut ss ++ [x])) ∨
      (r.1 = hiErrNodata ∧ r.2.1 = none ∧ AllOut P bs (handedOut ss) ∧ IterEnd bs r.2.2 ∧
        r.2.2.bucket = bs.length) ∨
      (r.1 = hiErrSystem ∧ r.2.1 = none ∧ ¬ w.AllocsSucceed) := by
    intro hj hj₀
    have hout := (ht.mono (hw₁.trans hw₂)).runs_handOut hj hj₀ hPlen
    refine Runs.bind hout fun q w₃ _ h₃ => ?_
    obtain ⟨x, hx, hk⟩ := h₃
    exact .inl ⟨x, rfl, by simp [hx], hk⟩
  dsimp only at h₂ ⊢
  rcases h₂ with (⟨rfl, hj, hj₀⟩ | ⟨rfl, ho, hjb, hja⟩ | ⟨rfl, hs⟩) | ⟨rfl, hj₀, hbad⟩
  · rw [if_pos rfl]
    exact hfound (.inl hj) hj₀
  · rw [if_neg (show ¬ hiErrNodata = 0 by decide)]
    refine .inr (.inl ⟨rfl, rfl, ho, ⟨Nat.le_of_eq hjb.symm, ?_⟩, hjb⟩)
    show j.a.nmemb = 0
    rw [hja]
    exact h₀
  · rw [if_neg (show ¬ hiErrSystem = 0 by decide)]
    exact .inr (.inr ⟨rfl, rfl, fun h => hs (h.mono hw₁)⟩)
  · rw [if_pos rfl]
    exact hfound (.inr hbad) hj₀

/-- The next pair, or the end. -/
theorem runs_hiIteratorGetnext (ht : Iterable F toArray t w P Bad bs) {i : HiIterator δ}
    {done : List (Stored δ)} (hi : IterAt P bs i done ∨ (Bad i.a ∧ i.a.nmemb ≠ 0))
    (hlen : bs.length < 2 ^ 64) (hPlen : ∀ l s, P l s → s.length < 2 ^ 64) :
    Runs F (hiIteratorGetnext t i) w fun r _ =>
      (∃ x, r.1 = 0 ∧ r.2.1 = some x.item ∧ IterAt P bs r.2.2 (done ++ [x])) ∨
      (r.1 = hiErrNodata ∧ r.2.1 = none ∧ AllOut P bs done ∧ IterEnd bs r.2.2 ∧
        r.2.2.bucket = bs.length) ∨
      (r.1 = hiErrSystem ∧ r.2.1 = none ∧ ¬ w.AllocsSucceed) := by
  by_cases h₀ : i.a.nmemb = 0
  · obtain ⟨hlt, ss, l, r, hss, hdone, ha, hn⟩ := hi.resolve_right fun hbad => hbad.2 h₀
    obtain rfl : l = [] := List.length_eq_zero_iff.mp (hn.symm.trans h₀)
    have hbucket : sizeT (i.bucket + 1) = i.bucket + 1 := Nat.mod_eq_of_lt (by omega)
    have hss' : List.Forall₂ P (bs.take (i.bucket + 1)) (ss ++ [r]) := by simpa using hss
    rw [hdone, ← handedOut_concat]
    exact ht.runs_hiIteratorGetnext_turn h₀ hbucket (Nat.succ_le_of_lt hlt) hss' hPlen
  · unfold hiIteratorGetnext
    rw [if_pos (by simpa using h₀)]
    refine Runs.bind (ht.runs_handOut (hi.imp_right And.left) h₀ hPlen) fun q w₁ _ h₁ => ?_
    obtain ⟨x, hx, hk⟩ := h₁
    exact .inl ⟨x, rfl, by simp [hx], hk⟩

/-- At the end every call returns `HI_ERR_NODATA`, until the counter of buckets wraps. -/
theorem runs_hiIteratorGetnext_end (ht : Iterable F toArray t w P Bad bs) {i : HiIterator δ}
    (hi : IterEnd bs i) (hb : i.bucket + 1 < 2 ^ 64) :
    Runs F (hiIteratorGetnext t i) w fun r _ => r.1 = hiErrNodata ∧ r.2.1 = none ∧
      IterEnd bs r.2.2 ∧ r.2.2.bucket = i.bucket + 1 := by
  obtain ⟨hle, h₀⟩ := hi
  unfold hiIteratorGetnext
  rw [if_neg (by simpa using h₀)]
  refine runs_bind.mpr (runs_lhiBucketArrayFree fun w₁ hw₁ _ => ?_)
  have hbucket : sizeT (i.bucket + 1) = i.bucket + 1 := Nat.mod_eq_of_lt hb
  have hzero : t.tableSize.toNat - (i.bucket + 1) = 0 := by
    rw [← ht.length]
    omega
  rw [hbucket, ht.next, getNext]
  simp only [hzero, getNextLoop, runs_bind, runs_pure]
  rw [if_neg (by decide)]
  exact ⟨rfl, rfl, ⟨Nat.le_succ_of_le hle, h₀⟩, rfl⟩

end Iterable

/-! ## Engines -/

namespace Engine

variable {G : Engine δ} {bs : List (List (Stored δ))}
  {P : List (Stored δ) → List (Stored δ) → Prop}

/-- The keys that a snapshot of the table finds as the table does. -/
def Known (G : Engine δ) (t : HiHandle δ) (bs : List (List (Stored δ))) : Key → Prop :=
  fun q => G.Admits t.hashFunc t.keyCmp (keysWith bs.flatten q)

section Rules

variable (hc : G.covers t.collEng) (hr : G.Rep t w bs)
  (hP : ∀ l ∈ bs, ∀ s, SnapOf t.keyCmp (G.Known t bs) l s → P l s)
  (hF : ∀ l ∈ bs, 2 ^ 32 ≤ l.length → l.length % 2 ^ 32 ≠ 0 → F .badAddress)
include hc hr hP

theorem iterable_of_snapshots (hsnap : ∀ {w'}, w ≤ w' → ∀ {b l a}, bs[b]? = some l →
    Runs F (G.toArray t b a) w' fun r _ =>
      (r = (hiErrNodata, a) ∧ l.length % 2 ^ 32 = 0) ∨
      (r = (hiErrSystem, a) ∧ ¬ w'.AllocsSucceed) ∨
      (r.1 = 0 ∧ ∃ s, s ≠ [] ∧ r.2.nmemb = s.length ∧ r.2.Shows (s.map some) ∧
        SnapOf t.keyCmp (G.Known t bs) l s)) :
    Iterable F G.toArray t w P (fun _ => False) bs where
  length := (G.table hr).length
  next _ _ := G.getNextBucket_eq hc
  bad h := h.elim
  snapshot {w'} hw {b l} hl a := by
    have hmem := List.mem_of_getElem? hl
    refine (hsnap hw hl).imp fun r _ h => ?_
    rcases h with ⟨rfl, hmod⟩ | ⟨rfl, hs⟩ | ⟨hr₀, s, hs₀, hn', ha, hsnap⟩
    · exact .inl ⟨rfl, hP l hmem _ (SnapOf.nil hmod)⟩
    · exact .inr (.inl ⟨rfl, hs⟩)
    · exact .inr (.inr (.inl ⟨hr₀, s, hs₀, hn', ha, hP l hmem s hsnap⟩))

include hF

/-- An engine takes snapshots that can be handed out. -/
theorem iterable : Iterable F G.toArray t w P (fun _ => False) bs :=
  G.iterable_of_snapshots hc hr hP fun hw _ _ _ hl =>
    G.snapshot hc (G.mono hr hw) hl (hF _ (List.mem_of_getElem? hl))

theorem runs_hiIteratorCreate : Runs F (hiIteratorCreate t) w fun r _ =>
    (∃ i, r = .ok i ∧ IterAt P bs i [] ∧ i.a.nmemb ≠ 0) ∨
    (r = .error hiErrNodata ∧ AllOut P bs []) ∨
    (r = .error hiErrSystem ∧ ¬ w.AllocsSucceed) := by
  refine (G.iterable hc hr hP hF).runs_hiIteratorCreate.imp fun r _ h => h.imp_left ?_
  rintro ⟨i, hi, hat, h₀⟩
  exact ⟨i, hi, hat.resolve_right id, h₀⟩

/-- The next pair, or the end. -/
theorem runs_hiIteratorGetnext {i : HiIterator δ} {done : List (Stored δ)} (hi : IterAt P bs i done)
    (hlen : bs.length < 2 ^ 64)
    (hPlen : ∀ l s, P l s → s.length < 2 ^ 64) :
    Runs F (hiIteratorGetnext t i) w fun r _ =>
      (∃ x, r.1 = 0 ∧ r.2.1 = some x.item ∧ IterAt P bs r.2.2 (done ++ [x])) ∨
      (r.1 = hiErrNodata ∧ r.2.1 = none ∧ AllOut P bs done ∧ IterEnd bs r.2.2 ∧
        r.2.2.bucket = bs.length) ∨
      (r.1 = hiErrSystem ∧ r.2.1 = none ∧ ¬ w.AllocsSucceed) :=
  (G.iterable hc hr hP hF).runs_hiIteratorGetnext (.inl hi) hlen hPlen

end Rules

end Engine

end Hashish
