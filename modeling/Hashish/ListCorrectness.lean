import Hashish.KeyOrder
import Hashish.ListMap
import Hashish.Sessions

/-!
# The list engines are correct

* `list_session_refines_map`: whatever calls are made, `COLL_ENG_LIST` and
  `COLL_ENG_LIST_MTF` give the answers of the abstract map, and their chains hold its
  pairs.
-/

namespace Hashish

open Hashish.Lib

variable {δ : Type}

/-- The list engines answer every session as the map does, so both answer alike. The chains in
memory have no cycles and no common objects, and hold the pairs of the map. -/
theorem list_session_refines_map {s : HiInitSet} {f : HashFunc} {cmp : KeyCmp}
    (hsize : s.tableSize ≠ 0) (hauto : s.rehashAuto = 0) (hhash : s.hashFunc = some f)
    (hcmp : s.keyCmp = some cmp) (heq : Equivalence cmp.same)
    (hresp : ∀ k k', cmp.same k k' → f.hash k = f.hash k') (ops : List (MapOp δ)) :
    ∀ e, e = .list ∨ e = .listMtf → ∀ w : World, w.AllocsSucceed →
      Total (session { s with collEng := e } ops) w fun r w' => ∃ h os,
        r = .ok ((mapSession cmp ops).1, h) ∧
        ListRep h w' os ∧
        Holds (mapSession cmp ops).2 (contents os).flatten ∧
        h.noObjects = UInt32.ofNat (mapSession cmp ops).2.size ∧
        ((mapSession cmp ops).2.size < 2 ^ 32 →
          h.noObjects.toNat = (mapSession cmp ops).2.size) := by
  intro e he w hw
  have hcheck := lhiSetSanityCheck_plain (s := { s with collEng := e }) hsize hhash hcmp
    (he.imp_right .inl)
  refine ((listEngine δ).runs_session hcheck he hauto heq (fun k k' _ _ => hresp k k') hw ops).imp ?_
  rintro r w' ⟨h, bs, rfl, hrep⟩
  obtain ⟨os, hr, rfl⟩ := hrep.rep
  have hcount : h.noObjects = UInt32.ofNat (mapSession cmp ops).2.size := by
    rw [(listEngine δ).count hrep.rep, hrep.holds.size]
  refine ⟨h, os, rfl, hr, hrep.holds, hcount, fun hlt => ?_⟩
  rw [hcount, UInt32.toNat_ofNat', Nat.mod_eq_of_lt hlt]

/-- Two keys with the same hash, one of them stored. -/
theorem list_session_refines_map_collision :
    Total (session { hiSetZero with
        tableSize := 2, hashFunc := some ⟨0, lhiHashDumb1⟩, keyCmp := some hiCmpUint16T,
        collEng := .listMtf }
      [.insert ⟨[1, 0], by decide⟩ "one", .get ⟨[2, 0], by decide⟩]) (World.start fun _ _ => 0)
      fun r _ => ∃ h, r = .ok ([⟨success, none⟩, ⟨hiErrNokey, none⟩], h) := by
  refine (list_session_refines_map (s := { hiSetZero with
    tableSize := 2, hashFunc := some ⟨0, lhiHashDumb1⟩, keyCmp := some hiCmpUint16T })
    (by decide) rfl rfl rfl orderOn_hiCmpUint16T.equivalence (fun _ _ _ => rfl) _ .listMtf (.inr rfl)
    _ (World.start_allocsSucceed _)).imp ?_
  rintro r w' ⟨h, os, rfl, -⟩
  exact ⟨h, rfl⟩

end Hashish
