import Hashish.Contents
import Hashish.Iterator

/-!
# Snapshots and what they show

`a.Shows cells` says which cells of a snapshot have been written, and with which
stored pairs. A fresh snapshot shows nothing, `put` writes one cell in all three
arrays, and `handOut` takes the last cell away.
-/

namespace Hashish

open Hashish.Lib

variable {δ : Type} {E : Fault → Prop} {w : World}

/-- What `hi_iterator_getnext` returns for a stored pair. -/
def Stored.item (x : Stored δ) : Item δ := ⟨x.data, ⟨some x.keyAddr, x.key.bytes⟩, x.key.keylen⟩

/-- The three arrays of a snapshot hold the pairs `cells`. -/
structure BucketArray.Shows (a : BucketArray δ) (cells : List (Option (Stored δ))) : Prop where
  dataAddr : a.data.addr ≠ none
  keysAddr : a.keys.addr ≠ none
  lengthAddr : a.keysLength.addr ≠ none
  data : a.data.cells = cells.map (·.map fun x => x.item.data)
  keys : a.keys.cells = cells.map (·.map fun x => x.item.key)
  keysLength : a.keysLength.cells = cells.map (·.map fun x => x.item.keylen)

/-! ## Allocation -/

/-- The overflow test of `lhi_bucket_array_alloc` succeeds for every `uint32_t`. -/
theorem runs_sizeDiv {Q : Nat → World → Prop} {n c : Nat} (hn : n ≠ 0) (hlt : n < 2 ^ 32)
    (hc : c ≤ 8) : Runs E (sizeDiv (sizeT (n * c)) n) w Q ↔ Q c w := by
  have hsize : sizeT (n * c) = n * c := by
    refine Nat.mod_eq_of_lt ?_
    calc n * c ≤ n * 8 := Nat.mul_le_mul_left n hc
      _ < 2 ^ 64 := by omega
  rw [sizeDiv, if_neg hn, hsize, Nat.mul_div_cancel_left c (Nat.pos_of_ne_zero hn), runs_pure]

theorem runs_lhiBucketArrayAlloc {Q : Int × BucketArray δ → World → Prop} {a : BucketArray δ}
    {n : Nat} (hn : n ≠ 0) (hlt : n < 2 ^ 32)
    (hfail : ∀ m w', w ≤ w' → m < 3 → w.Refused m w' → Q (hiErrSystem, a) w')
    (hok : ∀ a' w', w ≤ w' → w.Served 3 w' → a'.Shows (List.replicate n none) → a'.nmemb = n →
      Q (0, a') w') :
    Runs E (lhiBucketArrayAlloc a n) w Q := by
  unfold lhiBucketArrayAlloc
  rw [runs_bind, runs_sizeDiv hn hlt (by decide), if_neg (by decide), runs_bind]
  refine runs_malloc_refused (fun w₁ hw₁ hs => hfail 0 w₁ hw₁ (by decide) hs) ?_
  intro junk₁ w₁ hw₁ hn₁ hb₁ _
  have hs₁ := World.Served.one hn₁ hb₁
  rw [runs_bind]
  refine runs_malloc_refused ?_ fun junk₂ w₂ hw₂ hn₂ hb₂ _ => ?_
  · intro w₂ hw₂ hs
    refine runs_bind.mpr (runs_free fun w₃ hw₃ hn₃ => ?_)
    exact hfail _ w₃ (hw₁.trans (hw₂.trans hw₃)) (by decide) ((hs₁.refused hw₁ hs).after hn₃)
  have hs₂ := hs₁.trans hw₁ (World.Served.one hn₂ hb₂)
  rw [runs_bind, runs_sizeDiv hn hlt (by decide), if_neg (by decide), runs_bind]
  refine runs_malloc_refused ?_ fun junk₃ w₃ hw₃ hn₃ hb₃ _ => ?_
  · intro w₃ hw₃ hs
    refine runs_bind.mpr (runs_free fun w₄ hw₄ hn₄ => ?_)
    refine runs_bind.mpr (runs_free fun w₅ hw₅ hn₅ => ?_)
    exact hfail _ w₅ (hw₁.trans (hw₂.trans (hw₃.trans (hw₄.trans hw₅)))) (by decide)
      ((hs₂.refused (hw₁.trans hw₂) hs).after (hn₅.trans hn₄))
  have hs₃ := hs₂.trans (hw₁.trans hw₂) (World.Served.one hn₃ hb₃)
  refine hok _ w₃ (hw₁.trans (hw₂.trans hw₃)) hs₃ ⟨?_, ?_, ?_, ?_, ?_, ?_⟩ rfl
  all_goals simp [Fresh.unwritten]

/-! ## Writing and handing out -/

namespace BucketArray.Shows

variable {a : BucketArray δ} {cells : List (Option (Stored δ))}

theorem runs_put {Q : BucketArray δ → World → Prop} (ha : a.Shows cells) {i : Nat} {x : Stored δ}
    (hi : i < cells.length)
    (hQ : ∀ a', a'.Shows (cells.set i (some x)) → a'.nmemb = a.nmemb → Q a' w) :
    Runs E (a.put i x.item.data x.item.key x.item.keylen) w Q := by
  unfold BucketArray.put
  refine runs_bind.mpr (Block.runs_store ha.dataAddr (by simpa [ha.data] using hi) ?_)
  refine runs_bind.mpr (Block.runs_store ha.keysAddr (by simpa [ha.keys] using hi) ?_)
  refine runs_bind.mpr (Block.runs_store ha.lengthAddr (by simpa [ha.keysLength] using hi) ?_)
  refine hQ _ ⟨ha.dataAddr, ha.keysAddr, ha.lengthAddr, ?_, ?_, ?_⟩ rfl
  · simp [ha.data, List.map_set]
  · simp [ha.keys, List.map_set]
  · simp [ha.keysLength, List.map_set]

theorem with_nmemb (ha : a.Shows cells) (n : Nat) :
    ({ a with nmemb := n } : BucketArray δ).Shows cells :=
  { ha with }

/-- A write behind the end is undefined. -/
theorem runs_put_outside {Q : BucketArray δ → World → Prop} (ha : a.Shows cells) {i : Nat} {d : δ}
    {k : Block UInt8} {n : UInt32} (hi : cells.length ≤ i) (hE : E .badAddress) :
    Runs E (a.put i d k n) w Q := by
  unfold BucketArray.put
  obtain ⟨p, hp⟩ := Option.ne_none_iff_exists'.mp ha.dataAddr
  have hlen : ¬ i < a.data.cells.length := by simpa [ha.data] using hi
  rw [runs_bind, Block.store, hp]
  simp only [if_neg hlen]
  exact hE

end BucketArray.Shows

theorem runs_loadWritten {α : Type} {Q : α → World → Prop} {b : Block (Option α)} {i : Nat} {a : α}
    (hb : b.addr ≠ none) (h : b.cells[i]? = some (some a)) (hQ : Q a w) :
    Runs E (b.loadWritten i) w Q :=
  runs_bind.mpr (Block.runs_load hb h hQ)

/-- The last entry of the snapshot that was not handed out is handed out. -/
theorem runs_handOut {Q : Item δ × HiIterator δ → World → Prop} {i : HiIterator δ}
    {l r : List (Stored δ)} {x : Stored δ} {m : Nat}
    (ha : i.a.Shows ((l ++ x :: r).map some)) (hn : i.a.nmemb = m + 1) (hm : m = l.length)
    (hlt : m + 1 < 2 ^ 64)
    (hQ : Q (x.item, { i with a := { i.a with nmemb := m } }) w) :
    Runs E i.handOut w Q := by
  have hdec : sizeT (i.a.nmemb + (2 ^ 64 - 1)) = m := by
    rw [hn, sizeT]
    omega
  have hcell : ((l ++ x :: r).map some)[m]? = some (some x) := by simp [hm]
  unfold HiIterator.handOut
  simp only [hdec]
  refine runs_bind.mpr (runs_loadWritten (a := x.item.data) ha.dataAddr ?_ ?_)
  · rw [ha.data, List.getElem?_map, hcell]
    rfl
  refine runs_bind.mpr (runs_loadWritten (a := x.item.key) ha.keysAddr ?_ ?_)
  · rw [ha.keys, List.getElem?_map, hcell]
    rfl
  refine runs_bind.mpr (runs_loadWritten (a := x.item.keylen) ha.lengthAddr ?_ hQ)
  rw [ha.keysLength, List.getElem?_map, hcell]
  rfl

end Hashish
