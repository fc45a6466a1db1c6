import Hashish.Iteration

/-!
# Rehashing

`hi_rehash` on any engine. The new table receives the snapshots of the old one, pair
by pair. As long as every bucket has fewer than `2 ^ 32` entries these are all pairs.

* `Engine.runs_hiInsertWith`: an insertion that does not rehash.
* `Engine.runs_hiRehash`: on success the new handle finds what the snapshots hold;
  otherwise the handle is the old one.
-/

namespace Hashish

open Hashish.Lib

variable {δ : Type} {bs bs' : List (List (Stored δ))} {h h' : HiHandle δ} {w : World}
  {F : Fault → Prop} {cmp : KeyCmp} {K : Key → Prop}

/-- Every bucket has fewer entries than its counter can count. -/
def Fits (bs : List (List (Stored δ))) : Prop := ∀ l ∈ bs, l.length < 2 ^ 32

/-! ## Insertion -/

/-- What an insertion of `k` into the contents `bs` comes to. -/
def Inserted (G : Engine δ) (h : HiHandle δ) (w : World) (bs : List (List (Stored δ))) (k : Key)
    (d : δ) (r : Int × HiHandle δ) (w' : World) : Prop :=
  (h.keyCmp.find bs.flatten k ≠ none ∧ r = (hiErrDupkey, h)) ∨
  (h.keyCmp.find bs.flatten k = none ∧ r.1 = success ∧ r.2.toUserSettings = h.toUserSettings ∧
    ∃ x bs', x.pair = (k, d) ∧ G.Rep r.2 w' bs' ∧ bs'.flatten.Perm (x :: bs.flatten) ∧
      ∀ q, G.Admits h.hashFunc h.keyCmp (keysWith (x :: bs.flatten) q) →
        h.keyCmp.find bs'.flatten q = h.keyCmp.find (x :: bs.flatten) q) ∨
  (h.keyCmp.find bs.flatten k = none ∧ r.1 ≠ success ∧ r.1 ≠ hiErrDupkey ∧
    w.SomeFailed w' ∧ r.2 = h)

namespace Engine

variable {G : Engine δ} {k : Key} {d : δ}

theorem runs_engineInsert (hc : G.covers h.collEng) (hr : G.Rep h w bs) (hu : h.tableSize ≠ 0)
    (had : G.Admits h.hashFunc h.keyCmp (keysWith bs.flatten k))
    (hlate : G.lateDup ∨ h.keyCmp.find bs.flatten k = none) :
    Total (engineInsert h k.bytes k.keylen d) w (Inserted G h w bs k d) := by
  by_cases hf : h.keyCmp.find bs.flatten k = none
  · refine (G.insert hc hr hu had hf).imp fun r w' h₁ => ?_
    obtain ⟨hu', ⟨h₀, hx⟩ | hfail⟩ := h₁
    · exact .inr (.inl ⟨hf, h₀, hu', hx⟩)
    · exact .inr (.inr ⟨hf, hfail⟩)
  · have hl : G.lateDup := hlate.resolve_right hf
    exact (G.insertDup hl hc hr hu had hf).imp fun r w' h₁ => .inl ⟨hf, h₁⟩

/-- An insertion into a handle that does not rehash by itself. -/
theorem runs_hiInsertWith {rehash : HiHandle δ → UInt32 → Prog (Int × HiHandle δ)}
    (hc : G.covers h.collEng) (hr : G.Rep h w bs) (hu : h.tableSize ≠ 0)
    (had : G.Admits h.hashFunc h.keyCmp (keysWith bs.flatten k)) (hauto : h.rehashAuto = 0) :
    Total (hiInsertWith rehash h k.bytes k.keylen d) w (Inserted G h w bs k d) := by
  unfold hiInsertWith
  refine Runs.bind (G.lookup hc hr hu had) fun found w₁ hw₁ h₁ => ?_
  rcases h₁ with ⟨rfl, hf⟩ | ⟨hne, hl⟩
  · rw [if_pos rfl]
    exact .inl ⟨hf, rfl⟩
  · rw [if_neg hne, doRehash, if_pos hauto]
    refine runs_bind.mpr ((G.runs_engineInsert hc (G.mono hr hw₁) hu had hl).imp ?_)
    rintro r w₂ (h₂ | h₂ | h₂)
    · exact .inl h₂
    · exact .inr (.inl h₂)
    · exact .inr (.inr ⟨h₂.1, h₂.2.1, h₂.2.2.1, h₂.2.2.2.1.within hw₁ le_rfl, h₂.2.2.2.2⟩)

end Engine

/-! ## Moving the pairs -/

/-- The contents `E` have come from inserting the pairs `done` in turn. -/
structure Moved (cmp : KeyCmp) (K : Key → Prop) (E done : List (Stored δ)) : Prop where
  perm : (E.map Stored.pair).Perm (done.map Stored.pair)
  find : ∀ q, K q → (cmp.find E q).map Stored.pair = (cmp.find done.reverse q).map Stored.pair

theorem find_cons_pair {x : Stored δ} {E : List (Stored δ)} {q : Key} :
    (cmp.find (x :: E) q).map Stored.pair =
      if cmp.same q x.pair.1 then some x.pair else (cmp.find E q).map Stored.pair := by
  rw [KeyCmp.find_cons]
  split <;> rename_i h <;> simp only [Stored.pair, h, if_true, if_false, Option.map_some]

/-- One more pair. -/
theorem Moved.concat {E E' done : List (Stored δ)} {x y : Stored δ} (hm : Moved cmp K E done)
    (hy : y.pair = x.pair) (hperm : E'.Perm (y :: E))
    (hfind : ∀ q, K q → cmp.find E' q = cmp.find (y :: E) q) : Moved cmp K E' (done ++ [x]) := by
  refine ⟨?_, fun q hq => ?_⟩
  · calc (E'.map Stored.pair).Perm (y.pair :: E.map Stored.pair) := hperm.map _
      _ |>.Perm (x.pair :: done.map Stored.pair) := hy ▸ hm.perm.cons _
      _ |>.Perm ((done ++ [x]).map Stored.pair) := by
        rw [List.map_append, List.map_singleton]
        exact (List.perm_append_singleton _ _).symm
  · rw [hfind q hq, find_cons_pair, hm.find q hq, hy, List.reverse_append, List.reverse_singleton,
      List.singleton_append, find_cons_pair]

namespace Engine

variable {G : Engine δ}

theorem runs_hiFini (hc : G.covers h.collEng) (hr : G.Rep h w bs) :
    Runs F (hiFini h) w fun ret _ => ret = 0 := by
  unfold hiFini
  refine runs_bind.mpr ((Runs.of_total (G.fini hc hr)).imp fun r w₁ h₁ => ?_)
  obtain ⟨ret, h'⟩ := r
  have hret : ret = 0 := h₁
  subst hret
  dsimp only
  rw [if_pos rfl]
  exact runs_bind.mpr (runs_free fun _ _ _ => rfl)

/-- The relation between a bucket of the table and its snapshot. -/
abbrev Snap (G : Engine δ) (h : HiHandle δ) (bs : List (List (Stored δ))) :
    List (Stored δ) → List (Stored δ) → Prop :=
  SnapOf h.keyCmp (G.Known h bs)

/-- A pair of the table has the key of an earlier one. -/
def Clash (G : Engine δ) (h : HiHandle δ) (bs : List (List (Stored δ))) : Prop :=
  ∃ i done x, IterAt (G.Snap h bs) bs i (done ++ [x]) ∧ h.keyCmp.find done x.key ≠ none

/-- The settings of the table that `hi_rehash` builds. -/
def newSettings (h : HiHandle δ) (n : UInt32) : UserSettings :=
  { h.toUserSettings with tableSize := n, rehashAuto := 0 }

/-- What the loop of `hi_rehash` comes to: the new handle, an iteration that broke off for lack of
memory, or an insertion that failed. -/
def LoopEnd (G : Engine δ) (h : HiHandle δ) (n : UInt32) (bs : List (List (Stored δ))) (w : World)
    (r : Int × HiIterator δ × Option (HiHandle δ)) (w' : World) : Prop :=
  (r.1 = hiErrNodata ∧ ∃ new bs' done, r.2.2 = some new ∧ AllOut (G.Snap h bs) bs done ∧
    G.Rep new w' bs' ∧ new.toUserSettings = newSettings h n ∧
    Moved h.keyCmp (G.Known h bs) bs'.flatten done) ∨
  (r.1 = hiErrSystem ∧ r.2.2.isSome ∧ ¬ w.AllocsSucceed) ∨
  (r.1 ≠ success ∧ r.2.2 = none ∧ (¬ w.AllocsSucceed ∨ G.Clash h bs))

section Loop

variable {n : UInt32} (hc : G.covers h.collEng) (hr : G.Rep h w bs) (hn : n ≠ 0)
  (had : ∀ x ∈ bs.flatten, G.Known h bs x.key)
  (ht : Iterable F G.toArray h w (G.Snap h bs) (fun _ => False) bs)
include hc hr hn had ht

theorem runs_rehashLoop {fuel : Nat} {i : HiIterator δ} {new : HiHandle δ} {done : List (Stored δ)}
    (hi : IterAt (G.Snap h bs) bs i done) (hnew : G.Rep new w bs')
    (hu : new.toUserSettings = newSettings h n)
    (hm : Moved h.keyCmp (G.Known h bs) bs'.flatten done)
    (hfuel : (bs.map fun l => l.length % 2 ^ 32).sum < fuel + done.length) :
    Runs F (rehashLoop h fuel i new) w (LoopEnd G h n bs w) := by
  induction fuel generalizing i new bs' done w with
  | zero =>
    have := hi.length_le fun _ _ hs => Nat.le_of_eq hs.length
    omega
  | succ fuel ih =>
    have hlen : bs.length < 2 ^ 64 := by
      rw [(G.table hr).length]
      have := h.tableSize.toNat_lt
      omega
    have hsnap : ∀ l s, G.Snap h bs l s → s.length < 2 ^ 64 := fun l s hs => by
      rw [hs.length]
      omega
    rw [rehashLoop]
    refine Runs.bind (ht.runs_hiIteratorGetnext (.inl hi) hlen hsnap) fun r w₁ hw₁ h₁ => ?_
    obtain ⟨ret, next, i'⟩ := r
    dsimp only at h₁ ⊢
    rcases h₁ with ⟨x, rfl, rfl, hi'⟩ | ⟨rfl, rfl, ho, -⟩ | ⟨rfl, rfl, hs⟩
    · -- The next pair is inserted into the new table.
      have hmem : ∀ y ∈ done ++ [x], y ∈ bs.flatten := fun y hy => hi'.mem (fun _ _ hs => hs.subset) hy
      have hx : x ∈ bs.flatten := hmem x (by simp)
      have hcmp : new.keyCmp = h.keyCmp := (congrArg UserSettings.keyCmp hu :)
      have hhash : new.hashFunc = h.hashFunc := (congrArg UserSettings.hashFunc hu :)
      have hkeys : ∀ y ∈ bs'.flatten, ∃ z ∈ bs.flatten, z.key = y.key := by
        intro y hy
        have hp : y.pair ∈ done.map Stored.pair := hm.perm.mem_iff.mp (List.mem_map_of_mem hy)
        obtain ⟨z, hz, he⟩ := List.mem_map.mp hp
        exact ⟨z, hmem z (by simp [hz]), congrArg Prod.fst he⟩
      have had' : G.Admits new.hashFunc new.keyCmp (keysWith bs'.flatten x.key) := by
        rw [hcmp, hhash]
        exact G.admits_mono (had x hx) fun q => keysWith_mono hkeys
      have hc' : G.covers new.collEng := by
        rw [show new.collEng = h.collEng from (congrArg UserSettings.collEng hu :)]
        exact hc
      have hn' : new.tableSize ≠ 0 := by
        rw [show new.tableSize = n from (congrArg UserSettings.tableSize hu :)]
        exact hn
      have hauto : new.rehashAuto = 0 := (congrArg UserSettings.rehashAuto hu :)
      have hnew₁ := G.mono hnew hw₁
      refine Runs.bind (Runs.of_total (G.runs_hiInsertWith (d := x.data) hc' hnew₁ hn' had' hauto))
        fun r w₂ hw₂ h₂ => ?_
      obtain ⟨ret, new'⟩ := r
      -- What happens after an insertion that failed.
      have hfailed : ∀ nw, G.Rep nw w₂ bs' → G.covers nw.collEng → ret ≠ success →
          (¬ w.AllocsSucceed ∨ G.Clash h bs) →
          Runs F (if ret ≠ success then do
              hiIteratorFini i'
              let fini ← hiFini nw
              if fini = 0 then record (.danglingWrite nw.self) else pure ()
              pure (ret, i', none)
            else rehashLoop h fuel i' nw) w₂ (LoopEnd G h n bs w) := by
        intro nw hrep hcov hret hwhy
        rw [if_pos hret, hiIteratorFini, runs_bind, runs_bind]
        refine runs_lhiBucketArrayFree fun w₃ hw₃ _ => ?_
        refine runs_free fun w₄ hw₄ _ => ?_
        refine runs_bind.mpr ((G.runs_hiFini hcov (G.mono hrep (hw₃.trans hw₄))).imp ?_)
        rintro z w₅ rfl
        rw [if_pos rfl, runs_bind, runs_record, runs_pure]
        exact .inr (.inr ⟨hret, rfl, hwhy⟩)
      rcases h₂ with ⟨hf, he⟩ | ⟨hf, h₀, hu', y, bs'', hy, hrep, hperm, hfind⟩ | ⟨hf, h₀, h₀', hs, he⟩
      · cases he
        refine hfailed new (G.mono hnew₁ hw₂) hc' (by decide) (.inr ⟨i', done, x, hi', ?_⟩)
        have hfd := hm.find x.key (had x hx)
        rw [hcmp] at hf
        intro hnone
        have hrev : h.keyCmp.find done.reverse x.key = none :=
          KeyCmp.find_eq_none.mpr fun z hz =>
            KeyCmp.find_eq_none.mp hnone z (List.mem_reverse.mp hz)
        rw [hrev] at hfd
        exact hf (Option.map_eq_none_iff.mp hfd)
      · have hret : ret = success := h₀
        subst hret
        dsimp only at hu' hrep ⊢
        rw [if_neg (not_not_intro rfl)]
        have hm' : Moved h.keyCmp (G.Known h bs) bs''.flatten (done ++ [x]) := by
          refine hm.concat (y := y) hy hperm fun q hq => ?_
          rw [← hcmp]
          refine hfind q ?_
          rw [hcmp, hhash]
          refine G.admits_mono hq fun q' => keysWith_mono fun z hz => ?_
          rcases List.mem_cons.mp hz with rfl | hz
          · exact ⟨x, hx, (congrArg Prod.fst hy).symm⟩
          · exact hkeys z hz
        refine (ih (G.mono (G.mono hr hw₁) hw₂) (ht.mono (hw₁.trans hw₂)) hi' hrep (hu'.trans hu)
          hm' ?_).imp ?_
        · rw [List.length_append, List.length_singleton]
          omega
        · have hback : ¬ w₂.AllocsSucceed → ¬ w.AllocsSucceed :=
            fun hs hs' => hs (hs'.mono (hw₁.trans hw₂))
          rintro r w₃ (h₃ | ⟨h₃, h₄, hs⟩ | ⟨h₃, h₄, hwhy⟩)
          · exact .inl h₃
          · exact .inr (.inl ⟨h₃, h₄, hback hs⟩)
          · exact .inr (.inr ⟨h₃, h₄, hwhy.imp_left hback⟩)
      · have he' : new' = new := he
        subst he'
        exact hfailed new' (G.mono hnew₁ hw₂) hc' h₀ (.inl (hs.within hw₁ le_rfl).not_allocsSucceed)
    · exact .inl ⟨rfl, new, bs', done, rfl, ho, G.mono hnew hw₁, hu, hm⟩
    · exact .inr (.inl ⟨rfl, rfl, hs⟩)

end Loop

/-! ## The whole function -/

theorem runs_createWith {u : UserSettings} {p : Ptr} (hc : G.covers u.collEng) :
    Total (createWith u p : Prog (Except Int (HiHandle δ))) w fun r w' =>
      (r = .error hiErrSystem ∧ ¬ w.AllocsSucceed) ∨
      ∃ h, r = .ok h ∧ h.toUserSettings = u ∧ G.Rep h w' (List.replicate u.tableSize.toNat []) := by
  unfold createWith
  refine runs_bind.mpr (runs_xallocAlign (fun ret w₁ _ _ hs _ => .inl ⟨rfl, hs⟩) ?_)
  intro junk w₁ hw₁ _ _
  refine runs_bind.mpr (runs_lhiPthreadLockInit (fun ret w₂ _ hs => ?_) fun lock w₂ hw₂ _ => ?_)
  · exact .inl ⟨rfl, fun h => hs (h.mono hw₁)⟩
  · refine (G.create hc).imp ?_
    rintro r w₃ (⟨hr, hs⟩ | h₃)
    · exact .inl ⟨hr, fun h => hs (h.mono (hw₁.trans hw₂))⟩
    · exact .inr h₃

/-- What `hi_rehash` comes to: a new table with the pairs of the snapshots `ss`, or the old one. -/
def Rehashed (G : Engine δ) (h : HiHandle δ) (n : UInt32) (bs : List (List (Stored δ))) (w : World)
    (r : Int × HiHandle δ) (w' : World) : Prop :=
  (r.1 = success ∧ n ≠ 0 ∧ r.2.toUserSettings = { h.toUserSettings with tableSize := n } ∧
    ∃ bs' ss, G.Rep r.2 w' bs' ∧ List.Forall₂ (G.Snap h bs) bs ss ∧
      (bs'.flatten.map Stored.pair).Perm (ss.flatten.map Stored.pair) ∧
      ∀ q, G.Known h bs q → (h.keyCmp.find bs'.flatten q).map Stored.pair =
        (h.keyCmp.find ss.reverse.flatten q).map Stored.pair) ∨
  (r.1 ≠ success ∧ r.2 = h ∧
    (¬ w.AllocsSucceed ∨ AllOut (G.Snap h bs) bs [] ∨ G.Clash h bs))

theorem reverse_handedOut (ss : List (List (Stored δ))) :
    (handedOut ss).reverse = ss.reverse.flatten := by
  rw [handedOut, List.reverse_flatten, List.map_map]
  simp

theorem sum_mod_le (xs : List (List (Stored δ))) :
    (xs.map fun l => l.length % 2 ^ 32).sum ≤ xs.length * 2 ^ 32 := by
  induction xs with
  | nil => simp
  | cons l xs ih =>
    simp only [List.map_cons, List.sum_cons, List.length_cons]
    have : l.length % 2 ^ 32 < 2 ^ 32 := Nat.mod_lt _ (by decide)
    omega

/-- Rehashing any table whose keys the engine can compare. -/
theorem runs_hiRehash {n : UInt32} (hc : G.covers h.collEng) (hr : G.Rep h w bs)
    (hn : n ≠ 0 ∨ bs.flatten = []) (had : ∀ x ∈ bs.flatten, G.Known h bs x.key)
    (ht : Iterable F G.toArray h w (G.Snap h bs) (fun _ => False) bs) :
    Runs F (hiRehash h n) w (Rehashed G h n bs w) := by
  unfold hiRehash lhiCreateVanillaHdnl
  rw [runs_bind, runs_bind]
  refine runs_xallocAlign (fun ret w₁ _ _ hs _ => ?_) fun junk w₁ hw₁ _ _ => ?_
  · exact .inr ⟨show hiErrSystem ≠ success by decide, rfl, .inl hs⟩
  rw [runs_pure]
  refine Runs.bind (Runs.of_total (G.runs_createWith
    (u := { h.toUserSettings with tableSize := n }) hc)) fun r w₂ hw₂ h₂ => ?_
  rcases h₂ with ⟨rfl, hs⟩ | ⟨new, rfl, hu, hnew⟩
  · exact .inr ⟨show hiErrSystem ≠ success by decide, rfl, .inl fun h => hs (h.mono hw₁)⟩
  have hr₂ := G.mono hr (hw₁.trans hw₂)
  have ht₂ := ht.mono (hw₁.trans hw₂)
  refine Runs.bind ht₂.runs_hiIteratorCreate fun r w₃ hw₃ h₃ => ?_
  rcases h₃ with ⟨i, rfl, hi | hi, hi₀⟩ | ⟨rfl, ho⟩ | ⟨rfl, hs⟩
  · -- An iterator at a pair: the table is not empty.
    have hn' : n ≠ 0 := by
      refine hn.resolve_right fun hempty => hi₀ ?_
      obtain ⟨hlt, ss, l, r, hss, hdone, ha, hnm⟩ := hi
      have hl : ∀ x ∈ l, x ∈ bs.flatten := by
        intro x hx
        have hlast := List.forall₂_iff_get.mp hss
        have hs := hlast.2 ss.length (by rw [hlast.1]; simp) (by simp)
        have hxm := hs.subset x (by simp [hx])
        rw [List.get_eq_getElem, List.getElem_take] at hxm
        exact List.mem_flatten.mpr ⟨_, List.getElem_mem _, hxm⟩
      rw [hempty] at hl
      rw [hnm, List.length_eq_zero_iff]
      exact List.eq_nil_iff_forall_not_mem.mpr fun x hx => by simpa using hl x hx
    have hnew₃ : G.Rep { new with rehashAuto := 0 } w₃ (List.replicate n.toNat []) :=
      G.relabel 0 new.self (G.mono hnew hw₃)
    have hu₃ : ({ new with rehashAuto := 0 } : HiHandle δ).toUserSettings = newSettings h n := by
      show { new.toUserSettings with rehashAuto := 0 } = _
      rw [hu]
      rfl
    have hm : Moved h.keyCmp (G.Known h bs) (List.replicate n.toNat ([] : List (Stored δ))).flatten
        [] := ⟨by simp, fun q _ => by simp⟩
    have hfuel : (bs.map fun l => l.length % 2 ^ 32).sum <
        h.tableSize.toNat * 2 ^ 32 + 1 + ([] : List (Stored δ)).length := by
      have := sum_mod_le bs
      rw [(G.table hr).length] at this
      simp only [List.length_nil]
      omega
    refine Runs.bind (G.runs_rehashLoop hc (G.mono hr₂ hw₃) hn' had (ht₂.mono hw₃) hi hnew₃ hu₃ hm
      hfuel) fun r w₄ hw₄ h₄ => ?_
    have hback : ¬ w₃.AllocsSucceed → ¬ w.AllocsSucceed :=
      fun hs hs' => hs (hs'.mono (hw₁.trans (hw₂.trans hw₃)))
    obtain ⟨ret, i', rebuilt⟩ := r
    rcases h₄ with ⟨hret, new', bs', done, hnew', ⟨ss, hss, hdone⟩, hrep, hu', hmoved⟩ |
      ⟨hret, hsome, hs⟩ | ⟨hret, hnone, hwhy⟩
    · dsimp only at hret hnew' ⊢
      subst hret hnew'
      dsimp only
      rw [runs_bind, hiIteratorFini, runs_bind]
      refine runs_lhiBucketArrayFree fun w₅ hw₅ _ => ?_
      refine runs_free fun w₆ hw₆ _ => ?_
      rw [if_neg (not_not_intro rfl), runs_bind]
      have hw₆' := hw₅.trans hw₆
      have hr₆ := G.mono hr₂ (hw₃.trans (hw₄.trans hw₆'))
      refine (Runs.of_total (G.fini hc hr₆)).and_grows.imp fun _ w₇ h₇ => ?_
      refine .inl ⟨rfl, hn', ?_, bs', ss, ?_, hss, ?_, fun q hq => ?_⟩
      · show { new'.toUserSettings with rehashAuto := h.rehashAuto } = _
        rw [hu']
        rfl
      · exact G.relabel _ _ (G.mono hrep (hw₆'.trans h₇.1))
      · exact hmoved.perm.trans (hdone ▸ (handedOut_perm ss).map _)
      · rw [hmoved.find q hq, hdone, reverse_handedOut]
    · obtain ⟨new', hnew'⟩ := Option.isSome_iff_exists.mp hsome
      dsimp only at hret hnew' ⊢
      subst hret hnew'
      dsimp only
      rw [runs_bind, hiIteratorFini, runs_bind]
      refine runs_lhiBucketArrayFree fun w₅ hw₅ _ => runs_free fun w₆ hw₆ _ => ?_
      rw [if_pos (show hiErrSystem ≠ hiErrNodata by decide)]
      exact .inr ⟨show hiErrSystem ≠ success by decide, rfl, .inl (hback hs)⟩
    · dsimp only at hret hnone ⊢
      subst hnone
      exact .inr ⟨hret, rfl, hwhy.imp hback .inr⟩
  · exact hi.elim
  · exact .inr ⟨show hiErrNodata ≠ success by decide, rfl, .inr (.inl ho)⟩
  · exact .inr ⟨show hiErrSystem ≠ success by decide, rfl, .inl fun h => hs (h.mono (hw₁.trans hw₂))⟩

/-! ## Tables whose counters are right -/

theorem Snap.perm_flatten (hfit : Fits bs) {ss : List (List (Stored δ))}
    (hss : List.Forall₂ (SnapOf cmp K) bs ss) : ss.flatten.Perm bs.flatten := by
  induction hss with
  | nil => exact .nil
  | cons hs _ ih =>
    exact (hs.perm (hfit _ List.mem_cons_self)).append
      (ih fun l hl => hfit l (List.mem_cons_of_mem _ hl))

/-- The snapshots, the last bucket first, find what the table finds. -/
theorem Snap.find_reverse (hr : G.Rep h w bs) (hu : h.tableSize ≠ 0) (hfit : Fits bs)
    {ss : List (List (Stored δ))} (hss : List.Forall₂ (G.Snap h bs) bs ss) {q : Key}
    (hq : G.Known h bs q) : h.keyCmp.find ss.reverse.flatten q = h.keyCmp.find bs.flatten q := by
  have ht := G.table hr
  have hresp := G.respects hq
  have hget := List.forall₂_iff_get.mp hss
  have hsnap : ∀ (b : Nat) (l s : List (Stored δ)), bs[b]? = some l → ss[b]? = some s →
      G.Snap h bs l s := by
    intro b l s hl hs
    obtain ⟨hlb, rfl⟩ := List.getElem?_eq_some_iff.mp hl
    obtain ⟨hsb, rfl⟩ := List.getElem?_eq_some_iff.mp hs
    exact hget.2 b hlb hsb
  have hts : Table h.toUserSettings ss := by
    refine ⟨hget.1 ▸ ht.length, fun b s hs x hx => ?_⟩
    have hb : b < bs.length := hget.1 ▸ (List.getElem?_eq_some_iff.mp hs).1
    have hl := List.getElem?_eq_getElem hb
    exact ht.placed b _ hl x ((hsnap b _ s hl hs).subset x hx)
  have hperm := Snap.perm_flatten hfit hss
  have hresp' : h.hashFunc.Respects h.keyCmp (keysWith ss.flatten q) := fun k k' hk hk' =>
    hresp k k' (keysWith_mono (fun y hy => ⟨y, hperm.mem_iff.mp hy, rfl⟩) hk)
      (keysWith_mono (fun y hy => ⟨y, hperm.mem_iff.mp hy, rfl⟩) hk')
  obtain ⟨l, hl⟩ := ht.exists_bucket hu q
  obtain ⟨s, hs⟩ := hts.exists_bucket hu q
  have hlfit := hfit l (List.mem_of_getElem? hl)
  rw [hts.find_flatten_reverse hresp' hs, ht.find_flatten hresp hl]
  exact (hsnap _ l s hl hs).find hlfit q hq

/-- What `hi_rehash` comes to when the counters are right: the same pairs in a new table, or the old
table. -/
def Resized (G : Engine δ) (h : HiHandle δ) (n : UInt32) (bs : List (List (Stored δ)))
    (r : Int × HiHandle δ) (w' : World) : Prop :=
  (r.1 = success ∧ n ≠ 0 ∧ r.2.toUserSettings = { h.toUserSettings with tableSize := n } ∧
    ∃ bs', G.Rep r.2 w' bs' ∧
      (bs'.flatten.map Stored.pair).Perm (bs.flatten.map Stored.pair) ∧
      ∀ q, G.Known h bs q → (h.keyCmp.find bs'.flatten q).map Stored.pair =
        (h.keyCmp.find bs.flatten q).map Stored.pair) ∨
  (r.1 ≠ success ∧ r.2 = h)

theorem runs_hiRehash_fits {n : UInt32} (hc : G.covers h.collEng) (hr : G.Rep h w bs)
    (hu : h.tableSize ≠ 0) (hn : n ≠ 0 ∨ bs.flatten = [])
    (had : ∀ x ∈ bs.flatten, G.Known h bs x.key) (hfit : Fits bs) :
    Total (hiRehash h n) w (Resized G h n bs) := by
  have ht : Iterable (fun _ => False) G.toArray h w (G.Snap h bs) (fun _ => False) bs :=
    G.iterable hc hr (fun _ _ _ hs => hs) fun l hl hlen => absurd hlen (Nat.not_le_of_lt (hfit l hl))
  refine (G.runs_hiRehash hc hr hn had ht).imp fun r w' h₁ => ?_
  rcases h₁ with ⟨hret, hn', hu', bs', ss, hrep, hss, hperm, hfind⟩ | ⟨hret, he, -⟩
  · refine .inl ⟨hret, hn', hu', bs', hrep, ?_, fun q hq => ?_⟩
    · exact hperm.trans ((Snap.perm_flatten hfit hss).map _)
    · rw [hfind q hq, Snap.find_reverse hr hu hfit hss hq]
  · exact .inr ⟨hret, he⟩

end Engine

end Hashish
