import Hashish.RbtreeForest
import Hashish.Snapshots

/-!
# Snapshots of a tree

`hi_rbtree_traverse` numbers the entries in pre-order with a `size_t` and copies those
whose number is below the length of the snapshot. `Copied xs p cells cells'` says what
the cells hold after that: the entries are written to their numbers, and a snapshot
that is long enough holds them all, in order.

* `runs_hiRbtreeTraverse`: the traversal of a subtree.
* `runs_lhiRbtreeBucketToArray`: the snapshot of a bucket.
-/

namespace Hashish

open Hashish.Lib

variable {δ : Type} {E : Fault → Prop} {w : World} {h : HiHandle δ} {ts : List (ColorTree (RbObj δ))}
  {b : Nat} {t : ColorTree (RbObj δ)}

/-- What the cells of a snapshot hold after the pairs `xs` were written to the positions from `p` on,
positions being of type `size_t` and those behind the end being left out. -/
structure Copied (xs : List (Stored δ)) (p : Nat) (cells cells' : List (Option (Stored δ))) : Prop where
  length : cells'.length = cells.length
  source : (cells'.filterMap id).Subperm (xs ++ cells.filterMap id)
  kept : ∀ (q : Nat) (x : Stored δ), cells[q]? = some (some x) → ∃ y, cells'[q]? = some (some y)
  written : ∀ i, i < xs.length → sizeT (p + i) < cells.length →
    ∃ y, cells'[sizeT (p + i)]? = some (some y)
  exact : p + xs.length ≤ cells.length → cells.length < 2 ^ 64 →
    (∀ i, i < xs.length → cells'[p + i]? = (xs[i]?).map some) ∧
    ∀ q, q < p ∨ p + xs.length ≤ q → cells'[q]? = cells[q]?

theorem sizeT_of_lt {n : Nat} (h : n < 2 ^ 64) : sizeT n = n := Nat.mod_eq_of_lt h

theorem sizeT_lt (n : Nat) : sizeT n < 2 ^ 64 := Nat.mod_lt _ (by decide)

@[simp] theorem sizeT_add_left (m n : Nat) : sizeT (sizeT m + n) = sizeT (m + n) :=
  Nat.mod_add_mod _ _ _

namespace Copied

variable {xs ys : List (Stored δ)} {p : Nat} {cells cells₁ cells₂ : List (Option (Stored δ))}

theorem nil : Copied ([] : List (Stored δ)) p cells cells :=
  ⟨rfl, .refl _, fun _ x h => ⟨x, h⟩, fun _ h => absurd h (Nat.not_lt_zero _),
    fun _ _ => ⟨fun _ h => absurd h (Nat.not_lt_zero _), fun _ _ => rfl⟩⟩

theorem append (h₁ : Copied xs p cells cells₁) (h₂ : Copied ys (sizeT (p + xs.length)) cells₁ cells₂) :
    Copied (xs ++ ys) p cells cells₂ := by
  refine ⟨h₂.length.trans h₁.length, ?_, fun q x hx => ?_, fun i hi hlt => ?_, fun hfit hlen => ?_⟩
  · have hys : (ys ++ (xs ++ cells.filterMap id)).Perm (xs ++ ys ++ cells.filterMap id) := by
      rw [← List.append_assoc]
      exact List.perm_append_comm.append_right _
    exact (h₂.source.trans ((List.subperm_append_left _).mpr h₁.source)).trans hys.subperm
  · obtain ⟨y, hy⟩ := h₁.kept q x hx
    exact h₂.kept q y hy
  · by_cases hix : i < xs.length
    · obtain ⟨y, hy⟩ := h₁.written i hix hlt
      exact h₂.kept _ y hy
    · have := h₂.written (i - xs.length) (by simp at hi; omega)
      rw [sizeT_add_left, h₁.length, show p + xs.length + (i - xs.length) = p + i by omega] at this
      exact this hlt
  · rw [List.length_append] at hfit
    obtain ⟨hin₁, hout₁⟩ := h₁.exact (by omega) hlen
    have hex₂ := h₂.exact
    rw [h₁.length] at hex₂
    by_cases hwrap : p + xs.length < 2 ^ 64
    · rw [sizeT_of_lt hwrap] at hex₂
      obtain ⟨hin₂, hout₂⟩ := hex₂ (by omega) hlen
      refine ⟨fun i hi => ?_, fun q hq => ?_⟩
      · rw [List.length_append] at hi
        by_cases hix : i < xs.length
        · rw [hout₂ _ (.inl (by omega)), hin₁ i hix, List.getElem?_append_left hix]
        · have := hin₂ (i - xs.length) (by omega)
          rw [show p + xs.length + (i - xs.length) = p + i by omega] at this
          rw [this, List.getElem?_append_right (by omega)]
      · rw [List.length_append] at hq
        rw [hout₂ q (by omega), hout₁ q (by omega)]
    · omega

theorem filterMap_set {α : Type} (l : List (Option α)) (p : Nat) (x : α) :
    ((l.set p (some x)).filterMap id).Subperm (x :: l.filterMap id) := by
  induction l generalizing p with
  | nil => exact List.nil_subperm
  | cons c l ih =>
    cases p with
    | zero =>
      show (x :: l.filterMap id).Subperm (x :: (c :: l).filterMap id)
      exact (List.subperm_cons x).mpr ((List.sublist_cons_self c l).filterMap id).subperm
    | succ p =>
      cases c with
      | none => exact ih p
      | some c =>
        show (c :: (l.set p (some x)).filterMap id).Subperm (x :: c :: l.filterMap id)
        exact ((List.subperm_cons c).mpr (ih p)).trans (List.Perm.swap x c _).subperm

/-- The pair of the node itself is written last. -/
theorem cons {x : Stored δ} (hp : p < 2 ^ 64) (h : Copied xs (sizeT (p + 1)) cells cells₁) :
    Copied (x :: xs) p cells (if p < cells.length then cells₁.set p (some x) else cells₁) := by
  have hlen : (if p < cells.length then cells₁.set p (some x) else cells₁).length = cells.length := by
    split <;> simp [h.length]
  have hget : ∀ q, (if p < cells.length then cells₁.set p (some x) else cells₁)[q]? =
      if q = p ∧ p < cells.length then some (some x) else cells₁[q]? := by
    intro q
    by_cases hlt : p < cells.length
    · by_cases hq : q = p
      · subst hq
        simp [hlt, h.length]
      · simp [hlt, hq, List.getElem?_set_ne (Ne.symm hq)]
    · simp [hlt]
  refine ⟨hlen, ?_, fun q y hy => ?_, fun i hi hlt => ?_, fun hfit hl => ?_⟩
  · have hrest := (List.subperm_cons x).mpr h.source
    split
    · exact (filterMap_set cells₁ p x).trans hrest
    · exact (List.sublist_cons_self _ _).subperm.trans hrest
  · rw [hget]
    split
    · exact ⟨x, rfl⟩
    · exact h.kept q y hy
  · rw [hget]
    split
    · exact ⟨x, rfl⟩
    · rename_i hne
      cases i with
      | zero => exact absurd ⟨sizeT_of_lt hp, by rwa [Nat.add_zero, sizeT_of_lt hp] at hlt⟩ hne
      | succ i =>
        have := h.written i (by simpa using hi)
        rw [sizeT_add_left, show p + 1 + i = p + (i + 1) by omega] at this
        exact this hlt
  · rw [List.length_cons] at hfit
    have hplt : p < cells.length := by omega
    have hex := h.exact
    by_cases hwrap : p + 1 < 2 ^ 64
    · rw [sizeT_of_lt hwrap] at hex
      obtain ⟨hin, hout⟩ := hex (by omega) hl
      refine ⟨fun i hi => ?_, fun q hq => ?_⟩
      · rw [hget]
        cases i with
        | zero => rw [if_pos ⟨rfl, hplt⟩]; rfl
        | succ i =>
          rw [if_neg (by omega), show p + (i + 1) = p + 1 + i by omega, hin i (by simpa using hi),
            List.getElem?_cons_succ]
      · rw [List.length_cons] at hq
        rw [hget, if_neg (by omega), hout q (by omega)]
    · omega

theorem exists_map_some {α : Type} {cells : List (Option α)}
    (h : ∀ q, q < cells.length → ∃ y, cells[q]? = some (some y)) :
    ∃ s : List α, cells = s.map some := by
  induction cells with
  | nil => exact ⟨[], rfl⟩
  | cons c cells ih =>
    obtain ⟨y, hy⟩ := h 0 (Nat.succ_pos _)
    obtain ⟨s, rfl⟩ := ih fun q hq => by simpa using h (q + 1) (Nat.succ_lt_succ hq)
    refine ⟨y :: s, ?_⟩
    rw [List.getElem?_cons_zero, Option.some_inj] at hy
    rw [hy, List.map_cons]

/-- A fresh snapshot that is not too long is written completely. -/
theorem full {n : Nat} (h : Copied xs 0 (List.replicate n none) cells) (hn : n ≤ xs.length)
    (hlt : n < 2 ^ 64) :
    ∃ s, cells = s.map some ∧ s.length = n ∧ s.Subperm xs ∧ (n = xs.length → s = xs) := by
  have hlen : cells.length = n := h.length.trans List.length_replicate
  have hall : ∀ q, q < cells.length → ∃ y, cells[q]? = some (some y) := by
    intro q hq
    have hs : sizeT (0 + q) = q := by rw [Nat.zero_add, sizeT_of_lt (by omega)]
    have := h.written q (by omega)
    rw [hs, List.length_replicate] at this
    exact this (by omega)
  obtain ⟨s, rfl⟩ := exists_map_some hall
  rw [List.length_map] at hlen
  refine ⟨s, rfl, hlen, ?_, fun he => ?_⟩
  · have hnone : (List.replicate n (none : Option (Stored δ))).filterMap id = [] := by simp
    have hsub := h.source
    rwa [hnone, List.append_nil, List.filterMap_map, Function.id_comp, List.filterMap_some] at hsub
  · obtain ⟨hin, -⟩ := h.exact (by simp [he]) (by simpa using hlt)
    refine List.ext_getElem? fun i => ?_
    by_cases hi : i < xs.length
    · have := hin i hi
      rw [Nat.zero_add, List.getElem?_map] at this
      exact Option.map_injective (Option.some_injective _) this
    · rw [List.getElem?_eq_none (by omega), List.getElem?_eq_none (by omega)]

end Copied

/-- The pairs of a tree in pre-order. -/
def preStored (t : ColorTree (RbObj δ)) : List (Stored δ) := t.preorder.map RbObj.toStored

/-- The traversal of a subtree, or of an empty link. -/
theorem runs_hiRbtreeTraverse {fuel : Nat} {c : Ctx (RbObj δ)} {t : ColorTree (RbObj δ)} {p : Nat}
    {a : BucketArray δ} {cells : List (Option (Stored δ))}
    {Q : Nat × BucketArray δ → World → Prop} (hl : Linked h.nodes (addrs (c.plug t)))
    (hnd : (addrs (c.plug t)).toList.Nodup)
    (hent : ∀ x ∈ (c.plug t).toList, h.entries x.self = some x.entry) (hf : t.depth ≤ fuel)
    (hp : p < 2 ^ 64) (ha : a.Shows cells) (hn : a.nmemb = cells.length)
    (hQ : ∀ a' cells', Copied (preStored t) p cells cells' → a'.Shows cells' →
      a'.nmemb = cells'.length → Q (sizeT (p + (preStored t).length), a') w) :
    Runs E (traverseChild (hiRbtreeTraverse h fuel) (addrs t).root p a) w Q := by
  induction t generalizing fuel c p a cells Q with
  | nil =>
    have := hQ a cells Copied.nil ha hn
    rwa [show (preStored (.nil : ColorTree (RbObj δ))).length = 0 from rfl, Nat.add_zero,
      sizeT_of_lt hp] at this
  | node col l x r ihl ihr =>
    obtain ⟨fuel, rfl⟩ : ∃ n, fuel = n + 1 := ⟨fuel - 1, by simp [ColorTree.depth] at hf; omega⟩
    simp only [ColorTree.depth, Nat.add_le_add_iff_right] at hf
    have hx : x ∈ (c.plug (.node col l x r)).toList := by
      rw [Ctx.toList_plug]
      simp [ColorTree.toList]
    have hnode : h.nodes x.self = some ⟨(c.relabel RbObj.self).parent, col, (addrs r).root,
        (addrs l).root⟩ := by
      rw [addrs_plug] at hl hnd
      exact hl.node hnd
    have hpre : preStored (.node col l x r) = x.toStored :: (preStored l ++ preStored r) := by
      simp [preStored, ColorTree.preorder]
    show Runs E (hiRbtreeTraverse h (fuel + 1) x.self p a) w Q
    rw [hiRbtreeTraverse]
    refine runs_bind.mpr (runs_deref hnode ?_)
    rw [runs_bind]
    refine ihl (c := ⟨.left, col, x, r⟩ :: c) hl hnd hent (by omega) (sizeT_lt _) ha hn ?_
    intro a₁ cells₁ hc₁ ha₁ hn₁
    dsimp only
    rw [runs_bind]
    refine ihr (c := ⟨.right, col, x, l⟩ :: c) hl hnd hent (by omega) (sizeT_lt _) ha₁ hn₁ ?_
    intro a₂ cells₂ hc₂ ha₂ hn₂
    refine runs_bind.mpr (runs_deref (hent x hx) ?_)
    have hc := (hc₁.append hc₂).cons (x := x.toStored) hp
    have hlen : cells₂.length = cells.length := hc₂.length.trans hc₁.length
    have hpos : sizeT (sizeT (sizeT (p + 1) + (preStored l).length) + (preStored r).length) =
        sizeT (p + (preStored (.node col l x r)).length) := by
      rw [hpre, sizeT_add_left, Nat.add_assoc, sizeT_add_left]
      congr 1
      simp only [List.length_cons, List.length_append]
      omega
    rw [← hpre] at hc
    dsimp only
    rw [hpos]
    by_cases hlt : p < cells.length
    · rw [if_pos hlt] at hc
      rw [if_pos (by omega)]
      refine runs_bind.mpr (ha₂.runs_put (x := x.toStored) (by omega) fun a₃ ha₃ hn₃ => ?_)
      exact hQ a₃ _ hc ha₃ (by rw [hn₃, hn₂, List.length_set])
    · rw [if_neg hlt] at hc
      rw [if_neg (by omega)]
      exact hQ a₂ _ hc ha₂ hn₂

namespace RbRep

theorem preStored_perm (t : ColorTree (RbObj δ)) : (preStored t).Perm (t.toList.map RbObj.toStored) :=
  t.preorder_perm.map _

/-- The snapshot of a tree. When the counter of the bucket has wrapped, it holds fewer pairs. -/
theorem runs_lhiRbtreeBucketToArray {Q : Int × BucketArray δ → World → Prop} {a : BucketArray δ}
    (hr : RbRep h w ts) (hb : ts[b]? = some t)
    (hempty : t.toList.length % 2 ^ 32 = 0 → ∀ w', w ≤ w' → w'.requests = w.requests →
      Q (hiErrNodata, a) w')
    (hfail : ∀ m w', t.toList.length % 2 ^ 32 ≠ 0 → w ≤ w' → m < 3 → w.Refused m w' →
      Q (hiErrSystem, a) w')
    (hok : ∀ s a' w', w ≤ w' → w.Served 3 w' → s ≠ [] → s.length = t.toList.length % 2 ^ 32 →
      s.Subperm (preStored t) → (t.toList.length < 2 ^ 32 → s = preStored t) →
      a'.nmemb = s.length → a'.Shows (s.map some) → Q (0, a') w') :
    Runs E (lhiRbtreeBucketToArray h b a) w Q := by
  obtain ⟨lock, hroot⟩ := hr.roots b t hb
  have hmem : t ∈ ts := List.mem_of_getElem? hb
  have hlt : ¬ h.tableSize.toNat < b := by
    have h₁ := hr.table.length
    have h₂ := (List.getElem?_eq_some_iff.mp hb).1
    simp only [treeContents, List.length_map] at h₁
    omega
  unfold lhiRbtreeBucketToArray
  rw [if_neg hlt]
  refine runs_bind.mpr (Block.runs_load hr.treesAddr hroot ?_)
  cases hrt : (addrs t).root with
  | none =>
    refine hempty ?_ w le_rfl rfl
    have hnil := congrArg ColorTree.toList (ColorTree.eq_nil_of_root hrt)
    rw [toList_addrs] at hnil
    rw [List.map_eq_nil_iff.mp hnil]
    rfl
  | some rbnode =>
    dsimp only
    rw [runs_bind, runs_rdlock]
    have hw₀ : w ≤ w.log (.rdlock lock) := w.le_log _
    refine runs_bind.mpr (Block.runs_load hr.sizeAddr (hr.size_of_tree hb) ?_)
    have hsize : (UInt32.ofNat t.toList.length).toNat = t.toList.length % 2 ^ 32 :=
      UInt32.toNat_ofNat'
    by_cases hmod : t.toList.length % 2 ^ 32 = 0
    · have hz : UInt32.ofNat t.toList.length = 0 := UInt32.toNat_inj.mp (hsize.trans hmod)
      rw [if_pos hz, runs_bind, runs_rwUnlock, runs_pure]
      exact hempty hmod _ (hw₀.trans (World.le_log _ _)) rfl
    · have hz : UInt32.ofNat t.toList.length ≠ 0 := fun hz => hmod (by rw [← hsize, hz]; rfl)
      rw [if_neg hz, hsize, runs_bind]
      refine runs_lhiBucketArrayAlloc hmod (Nat.mod_lt _ (by decide)) (fun m w₁ hw₁ hm hs => ?_) ?_
      · dsimp only
        rw [if_pos (show hiErrSystem ≠ 0 by decide), runs_bind, runs_rwUnlock, runs_pure]
        exact hfail m _ hmod (hw₀.trans (hw₁.trans (World.le_log _ _))) hm (hs.of_log.after rfl)
      · intro a₁ w₁ hw₁ hs₁ ha₁ hn₁
        dsimp only
        rw [if_neg (not_not_intro rfl), runs_bind, runs_walkBound, runs_bind]
        have hdepth : t.depth ≤ w₁.requests + 1 :=
          Nat.le_trans t.depth_le_length (Nat.le_trans (hr.length_le hb)
            (Nat.le_succ_of_le (hw₀.trans hw₁).requests))
        have hn₁' : a₁.nmemb = (List.replicate (t.toList.length % 2 ^ 32)
            (none : Option (Stored δ))).length := by rw [hn₁, List.length_replicate]
        -- The root is a child like any other.
        have hlink : ∀ R, Runs E (traverseChild (hiRbtreeTraverse h (w₁.requests + 1))
            (addrs t).root 0 a₁) w₁ R → Runs E (hiRbtreeTraverse h (w₁.requests + 1) rbnode 0 a₁) w₁
            R := by
          rw [hrt]
          exact fun _ hrun => hrun
        refine hlink _ (runs_hiRbtreeTraverse (c := []) (hr.linked t hmem) (hr.nodup_addrs hb)
          (hr.entries t hmem) hdepth (by decide) ha₁ hn₁' fun a' cells' hc ha' hn' => ?_)
        have hpl : (preStored t).length = t.toList.length := by
          rw [(preStored_perm t).length_eq, List.length_map]
        obtain ⟨s, rfl, hs, hsub, hfull⟩ := hc.full (by rw [hpl]; exact Nat.mod_le _ _)
          (Nat.lt_trans (Nat.mod_lt _ (by decide)) (by decide))
        dsimp only
        rw [runs_bind, runs_rwUnlock, runs_pure]
        refine hok s a' _ (hw₀.trans (hw₁.trans (World.le_log _ _))) (hs₁.of_log.after rfl) ?_ hs hsub
          ?_ ?_ ha'
        · rintro rfl
          exact hmod hs.symm
        · intro hlt
          exact hfull (by rw [hpl, Nat.mod_eq_of_lt hlt])
        · rw [hn', List.length_map]

end RbRep

end Hashish
