import Hashish.Iteration

/-!
# Full iterations

`iterate t n` creates an iterator and asks it for entries until it has none left.

* `Iterable.runs_iterate`: a full iteration hands out the snapshots of all buckets.
-/

namespace Hashish

open Hashish.Lib

variable {δ α : Type} {P : α → List (Stored δ) → Prop} {bs : List α} {t : HiHandle δ}
  {w : World} {F : Fault → Prop} {toArray : ToArray δ} {Bad : BucketArray δ → Prop} {n : α → Nat}

/-- Call `hi_iterator_getnext` until it hands out nothing: what was handed out, and the last
status. -/
def drain (t : HiHandle δ) : Nat → HiIterator δ → Prog (List (Item δ) × Int)
  | 0, _ => Prog.fault .nontermination
  | fuel + 1, i => do
    let (ret, next, i) ← hiIteratorGetnext t i
    match next with
    | none => pure ([], ret)
    | some item => do
      let (items, ret) ← drain t fuel i
      pure (item :: items, ret)

/-- A full iteration. -/
def iterate (t : HiHandle δ) (fuel : Nat) : Prog (List (Item δ) × Int) := do
  match ← hiIteratorCreate t with
  | .error ret => pure ([], ret)
  | .ok i => drain t fuel i

namespace Iterable

section Rules

variable (ht : Iterable F toArray t w P Bad bs) (hw : w.AllocsSucceed)
  (hlen : bs.length < 2 ^ 64) (hP : ∀ l s, P l s → s.length < 2 ^ 64 ∧ s.length ≤ n l)
include ht hw hlen hP

theorem runs_drain {fuel : Nat} {i : HiIterator δ} {done : List (Stored δ)}
    (hi : IterAt P bs i done ∨ (Bad i.a ∧ i.a.nmemb ≠ 0))
    (hfuel : (bs.map n).sum < fuel + done.length) (hpos : fuel ≠ 0) :
    Runs F (drain t fuel i) w fun r _ => r.2 = hiErrNodata ∧
      ∃ rest, r.1 = rest.map Stored.item ∧ AllOut P bs (done ++ rest) := by
  induction fuel generalizing i done w with
  | zero => exact (hpos rfl).elim
  | succ fuel ih =>
    rw [drain]
    refine Runs.bind (ht.runs_hiIteratorGetnext hi hlen fun l s hs => (hP l s hs).1) ?_
    rintro ⟨ret, next, i'⟩ w₁ hw₁ h₁
    dsimp only at h₁ ⊢
    rcases h₁ with ⟨x, rfl, rfl, hi'⟩ | ⟨rfl, rfl, ho, -⟩ | ⟨-, -, hs⟩
    · have hle := hi'.length_le fun l s hs => (hP l s hs).2
      rw [List.length_append, List.length_singleton] at hle
      refine runs_bind.mpr ((ih (ht.mono hw₁) (hw.mono hw₁) (.inl hi') ?_ ?_).imp ?_)
      · rw [List.length_append, List.length_singleton]
        omega
      · omega
      · rintro ⟨items, ret⟩ w₂ ⟨hret, rest, hitems, ho⟩
        refine ⟨hret, x :: rest, congrArg _ hitems, ?_⟩
        rwa [List.append_assoc] at ho
    · exact ⟨rfl, [], rfl, by rwa [List.append_nil]⟩
    · exact (hs hw).elim

/-- A full iteration hands out the snapshots of all buckets, and ends with `HI_ERR_NODATA`. -/
theorem runs_iterate {fuel : Nat} (hfuel : (bs.map n).sum < fuel) :
    Runs F (iterate t fuel) w fun r _ => r.2 = hiErrNodata ∧
      ∃ done, r.1 = done.map Stored.item ∧ AllOut P bs done := by
  unfold iterate
  refine Runs.bind ht.runs_hiIteratorCreate fun r w₁ hw₁ h₁ => ?_
  rcases h₁ with ⟨i, rfl, hi, hi₀⟩ | ⟨rfl, ho⟩ | ⟨rfl, hs⟩
  · exact (ht.mono hw₁).runs_drain (hw.mono hw₁) hlen hP (hi.imp_right fun hb => ⟨hb, hi₀⟩)
      (by simpa using hfuel) (by omega)
  · exact ⟨rfl, [], rfl, ho⟩
  · exact (hs hw).elim

end Rules

end Iterable

end Hashish
