import Hashish.KeyOrder
import Hashish.MapMachine

/-!
# Tables with many entries

The counters of the library have 32 bits. What they do beyond the limit is seen on tables
that hold more than `2 ^ 32` keys: the numbers below some bound, as keys of eight
bytes, inserted in turn.
-/

namespace Hashish

open Hashish.Lib

/-- The key of eight bytes for a number. -/
def numberKey (n : Nat) : Key :=
  ⟨(List.range 8).map fun i => UInt8.ofNat (n / 256 ^ i), by simp⟩

/-- A compare function that tells keys apart and does not order them. -/
def cmpBytes (key1 key2 : Bytes) : Int := if key1 = key2 then 0 else 1

theorem readInt_numberKey {n : Nat} (hn : n < 2 ^ 64) : readInt 8 (numberKey n).bytes = n := by
  simp only [readInt, numberKey, List.range, List.range.loop, List.map_cons, List.map_nil,
    List.take_succ_cons, List.take_zero, List.foldr_cons, List.foldr_nil, UInt8.toNat_ofNat']
  omega

theorem numberKey_inj {n n' : Nat} (hn : n < 2 ^ 64) (hn' : n' < 2 ^ 64)
    (h : numberKey n = numberKey n') : n = n' := by
  rw [← readInt_numberKey hn, h, readInt_numberKey hn']

theorem same_cmpBytes {k k' : Key} : KeyCmp.same cmpBytes k k' ↔ k = k' := by
  have hkey : k.bytes = k'.bytes ↔ k = k' := by
    cases k
    cases k'
    simp
  rw [KeyCmp.same, cmpBytes, ← hkey]
  split
  · exact iff_of_true rfl ‹_›
  · exact iff_of_false (by decide) ‹_›

theorem equivalence_cmpBytes : Equivalence (KeyCmp.same cmpBytes) where
  refl _ := same_cmpBytes.mpr rfl
  symm h := same_cmpBytes.mpr (same_cmpBytes.mp h).symm
  trans h h' := same_cmpBytes.mpr ((same_cmpBytes.mp h).trans (same_cmpBytes.mp h'))

/-- Insert the keys of some numbers. -/
def insertAll (ns : List Nat) : List (MapOp Unit) := ns.map fun n => .insert (numberKey n) ()

/-- The pairs of the map after the insertions. -/
theorem mapRun_insertAll_pairs {ns : List Nat} {m : KeyMap cmpBytes Unit} (hns : ns.Nodup)
    (hlt : ∀ n ∈ ns, n < 2 ^ 64) (hm : ∀ n ∈ ns, m.Absent (numberKey n)) :
    (mapRun m (insertAll ns)).2.pairs =
      (ns.reverse.map fun n => (numberKey n, ())) ++ m.pairs := by
  induction ns generalizing m with
  | nil => rfl
  | cons n ns ih =>
    obtain ⟨hn, hns⟩ := List.nodup_cons.mp hns
    have ha := hm n List.mem_cons_self
    have hstep : mapStep m (.insert (numberKey n) ()) =
        (⟨success, none⟩, m.insertNew (numberKey n) () ha) := by
      rw [mapStep, dif_pos ha]
    have hrest := ih (m := m.insertNew (numberKey n) () ha) hns
      (fun n' hn' => hlt n' (List.mem_cons_of_mem _ hn')) fun n' hn' => ?_
    · simp only [mapRun, insertAll, List.map_cons, Machine.runStep, hstep] at hrest ⊢
      rw [hrest, FMap.insertNew]
      simp
    · intro p hp hs
      rcases List.mem_cons.mp hp with rfl | hp
      · have he := numberKey_inj (hlt n' (List.mem_cons_of_mem _ hn')) (hlt n List.mem_cons_self)
          (same_cmpBytes.mp hs)
        exact hn (he ▸ hn')
      · exact hm n' (List.mem_cons_of_mem _ hn') p hp hs

/-- The map after the insertions holds all the numbers. -/
theorem mapRun_insertAll {ns : List Nat} {m : KeyMap cmpBytes Unit} (hns : ns.Nodup)
    (hlt : ∀ n ∈ ns, n < 2 ^ 64) (hm : ∀ n ∈ ns, m.Absent (numberKey n)) :
    (mapRun m (insertAll ns)).2.size = m.size + ns.length := by
  rw [FMap.size, mapRun_insertAll_pairs hns hlt hm, List.length_append, List.length_map,
    List.length_reverse, FMap.size, Nat.add_comm]

end Hashish
