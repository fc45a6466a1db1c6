import Hashish.Stores

/-!
# Calls on a table and its iterators

An iterator of a table is a number: the iterators are counted in the order of their creation. Calls
on the table may come between the calls on the iterators.
-/

namespace Hashish

open Hashish.Lib

variable {δ : Type}

/-- A call on a table or on one of its iterators. -/
inductive IterCall (δ : Type)
  | map (op : MapOp δ)
  | create
  | getnext (n : Nat)
  | reset (n : Nat)

/-- A status, the data of a call on the table, and what `hi_iterator_getnext` hands out. -/
structure IterAnswer (δ : Type) where
  status : Int
  data : Option δ
  item : Option (Item δ)

/-- A table and its iterators. -/
structure IterTable (δ : Type) where
  handle : HiHandle δ
  its : List (HiIterator δ)

/-- Without an iterator of that number there is no call, and no answer. -/
def IterCall.call (c : IterCall δ) (t : IterTable δ) :
    Prog (Option (IterAnswer δ) × IterTable δ) :=
  match c with
  | map op => do
    let (r, h) ← op.call t.handle
    pure (some ⟨r.status, r.data, none⟩, { t with handle := h })
  | create => do
    match ← hiIteratorCreate t.handle with
    | .error ret => pure (some ⟨ret, none, none⟩, t)
    | .ok i => pure (some ⟨success, none, none⟩, { t with its := t.its ++ [i] })
  | getnext n =>
    match t.its[n]? with
    | none => pure (none, t)
    | some i => do
      let (ret, item, i) ← hiIteratorGetnext t.handle i
      pure (some ⟨ret, none, item⟩, { t with its := t.its.set n i })
  | reset n =>
    match t.its[n]? with
    | none => pure (none, t)
    | some i => do
      let (ret, i) ← hiIteratorReset t.handle i
      pure (some ⟨ret, none, none⟩, { t with its := t.its.set n i })

end Hashish
