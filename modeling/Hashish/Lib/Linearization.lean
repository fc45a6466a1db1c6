import Hashish.Lib.Interleaving

/-!
# Calls that take effect at one instant

An atomic object makes each call at one instant between its start and its return. A component is
linearizable when what its clients see of a run, the calls and the returns, is what they could see
of the atomic object.

* `Run.linearized`: it suffices that each section keeps a relation with the state of the object,
  and settles at most the call it belongs to.
* `AtomicRun.sequential`: the answers are those of a sequential run of the object, in which each
  client makes its calls in its own order.
-/

namespace Hashish.Lib

variable {σ ε S ι π ο κ α : Type} [Preorder σ]

/-! ## Histories -/

/-- What clients see of a run. -/
inductive Event (ι ο κ : Type)
  | call (c : κ) (i : ι)
  | ret (c : κ) (i : ι) (o : ο)

/-- The event of an act, unless it is a section in the middle of a call. -/
def Act.event? : Act ι π ο κ → Option (Event ι ο κ)
  | .call c i => some (.call c i)
  | .go c i _ (.inr o) => some (.ret c i o)
  | .go _ _ _ (.inl _) => none

def history (as : List (Act ι π ο κ)) : List (Event ι ο κ) := as.filterMap Act.event?

/-- The answer that the event gives to a call of the client. -/
def Event.answer? [DecidableEq κ] (c : κ) : Event ι ο κ → Option (ι × ο)
  | .ret c' i o => if c' = c then some (i, o) else none
  | .call _ _ => none

/-- The calls of the client that have returned, with the answers. -/
def returns [DecidableEq κ] (c : κ) (H : List (Event ι ο κ)) : List (ι × ο) :=
  H.filterMap (Event.answer? c)

theorem history_concat {as : List (Act ι π ο κ)} {a : Act ι π ο κ} :
    history (as ++ [a]) = history as ++ a.event?.toList := by
  rw [history, List.filterMap_append, ← history]
  cases h : a.event? <;> simp [h]

theorem returns_concat [DecidableEq κ] {c : κ} {H : List (Event ι ο κ)} {e : Event ι ο κ} :
    returns c (H ++ [e]) = returns c H ++ (e.answer? c).toList := by
  rw [returns, List.filterMap_append, ← returns]
  cases h : e.answer? c <;> simp [h]

theorem returns_history [DecidableEq κ] {c : κ} {as : List (Act ι π ο κ)} :
    returns c (history as) = answers c as := by
  rw [returns, history, List.filterMap_filterMap, answers]
  refine List.filterMap_congr fun a _ => ?_
  cases a with
  | call c' i => rfl
  | go c' i p r => cases r <;> rfl

/-! ## The atomic object -/

/-- Where the call of a client of the atomic object stands. -/
inductive Slot (ι ο : Type)
  | idle
  /-- The call has not taken effect. -/
  | called (i : ι)
  /-- The call has taken effect, and `o` is to be returned. -/
  | done (i : ι) (o : ο)

/-- What a client will be answered. -/
def Slot.settled : Slot ι ο → List (ι × ο)
  | idle | called _ => []
  | done i o => [(i, o)]

variable [DecidableEq κ]

/-- The atomic object `N` can show the clients the history, from the state `a₀` to `a`. -/
inductive AtomicRun (N : Machine ι ο α) (a₀ : α) :
    List (Event ι ο κ) → α → (κ → Slot ι ο) → Prop
  | nil : AtomicRun N a₀ [] a₀ fun _ => .idle
  | call {H : List (Event ι ο κ)} {a : α} {s : κ → Slot ι ο} {c : κ} {i : ι}
      (hrun : AtomicRun N a₀ H a s) (hidle : s c = .idle) :
      AtomicRun N a₀ (H ++ [.call c i]) a (Function.update s c (.called i))
  | effect {H : List (Event ι ο κ)} {a : α} {s : κ → Slot ι ο} {c : κ} {i : ι} {o : ο}
      (hrun : AtomicRun N a₀ H a s) (hcalled : s c = .called i) (hallows : N.allows a i o) :
      AtomicRun N a₀ H (N.next a i o) (Function.update s c (.done i o))
  | ret {H : List (Event ι ο κ)} {a : α} {s : κ → Slot ι ο} {c : κ} {i : ι} {o : ο}
      (hrun : AtomicRun N a₀ H a s) (hdone : s c = .done i o) :
      AtomicRun N a₀ (H ++ [.ret c i o]) a (Function.update s c .idle)

namespace AtomicRun

variable {N : Machine ι ο α} {a₀ a : α} {H : List (Event ι ο κ)} {s : κ → Slot ι ο}

/-- The calls took effect one after the other: the object answered them so in this order, and each
client made its own ones in its own order. -/
theorem sequential (h : AtomicRun N a₀ H a s) :
    ∃ L : List (κ × ι × ο), N.Trace a₀ (L.map fun e => e.2.1) (L.map fun e => e.2.2) a ∧
      ∀ c, (L.filter fun e => e.1 = c).map Prod.snd = returns c H ++ (s c).settled := by
  induction h with
  | nil => exact ⟨[], rfl, fun c => rfl⟩
  | @call H a s c i hrun hidle ih =>
    obtain ⟨L, hL, hc⟩ := ih
    refine ⟨L, hL, fun c' => ?_⟩
    rw [hc, returns_concat]
    by_cases heq : c' = c
    · subst heq
      simp [Event.answer?, hidle, Slot.settled]
    · simp [Event.answer?, Function.update_of_ne heq]
  | @effect H a s c i o hrun hcalled hallows ih =>
    obtain ⟨L, hL, hc⟩ := ih
    refine ⟨L ++ [(c, i, o)], ?_, fun c' => ?_⟩
    · simpa using hL.concat hallows
    · rw [List.filter_append, List.map_append, hc]
      by_cases heq : c' = c
      · subst heq
        simp [hcalled, Slot.settled]
      · simp [Function.update_of_ne heq, Ne.symm heq]
  | @ret H a s c i o hrun hdone ih =>
    obtain ⟨L, hL, hc⟩ := ih
    refine ⟨L, hL, fun c' => ?_⟩
    rw [hc, returns_concat]
    by_cases heq : c' = c
    · subst heq
      simp [Event.answer?, hdone, Slot.settled]
    · simp [Event.answer?, Function.update_of_ne heq, Ne.symm heq]

/-- An object that allows more and goes on alike. -/
theorem imp {N' : Machine ι ο α} (h : AtomicRun N a₀ H a s)
    (hN : ∀ a i o, N.allows a i o → N'.allows a i o ∧ N'.next a i o = N.next a i o) :
    AtomicRun N' a₀ H a s := by
  induction h with
  | nil => exact .nil
  | call hrun hidle ih => exact ih.call hidle
  | effect hrun hcalled hallows ih =>
    obtain ⟨hallows', hnext⟩ := hN _ _ _ hallows
    exact hnext ▸ ih.effect hcalled hallows'
  | ret hrun hdone ih => exact ih.ret hdone

end AtomicRun

/-! ## The rule -/

section Simulation

variable {M : Protocol σ ε S ι π ο} {N : Machine ι ο α} {committed : π → Option ο}
  {s t : Shared σ S ι π κ} {as : List (Act ι π ο κ)} {a : Act ι π ο κ} {x₀ x x' : α}
  {Ok : List (Act ι π ο κ) → Shared σ S ι π κ → Act ι π ο κ → Prop}

/-- Where the call of a client stands, when one at the stage `p` has taken effect with the answer
`committed p`. -/
def slotOf (committed : π → Option ο) : Option (ι × π) → Slot ι ο
  | none => .idle
  | some (i, p) =>
    match committed p with
    | none => .called i
    | some o => .done i o

def Shared.slot (committed : π → Option ο) (s : Shared σ S ι π κ) (c : κ) : Slot ι ο :=
  slotOf committed (s.pending c)

theorem Step.slot (h : Step M s a t) : t.slot committed =
    Function.update (s.slot committed) a.client (slotOf committed (a.after M)) := by
  funext c
  by_cases hc : c = a.client
  · rw [hc, Function.update_self, Shared.slot, h.pending_self]
  · rw [Function.update_of_ne hc, Shared.slot, h.pending_other hc, Shared.slot]

/-- The object goes from `x` to `x'` when the act is made. A section of a call that has taken effect
keeps its answer; where a section fixes the answer of a call, the call takes effect. -/
def Act.Settles (N : Machine ι ο α) (committed : π → Option ο) (x : α) : Act ι π ο κ → α → Prop
  | .call _ _, x' => x' = x
  | .go _ i p r, x' =>
    match committed p, r.elim committed some with
    | some o, o' => o' = some o ∧ x' = x
    | none, none => x' = x
    | none, some o => N.allows x i o ∧ x' = N.next x i o

/-- What the clients see of an act, the object shows them. -/
theorem AtomicRun.step {H : List (Event ι ο κ)} (hstart : ∀ i, committed (M.start i) = none)
    (h : AtomicRun N x₀ H x (s.slot committed)) (hstep : Step M s a t)
    (hact : a.Settles N committed x x') :
    AtomicRun N x₀ (H ++ a.event?.toList) x' (t.slot committed) := by
  rw [hstep.slot]
  cases hstep with
  | @call c i hp =>
    obtain rfl : x' = x := hact
    have hafter : slotOf committed (Act.after M (.call c i : Act ι π ο κ)) = .called i := by
      simp [Act.after, slotOf, hstart]
    rw [hafter]
    exact h.call (by rw [Shared.slot, hp, slotOf])
  | @go c i p r s' w' hp hrun =>
    have hbefore : s.slot committed c = slotOf committed (some (i, p)) := congrArg _ hp
    rw [slotOf] at hbefore
    rw [Act.Settles] at hact
    cases hcom : committed p with
    | some o =>
      rw [hcom] at hact hbefore
      obtain ⟨ho, rfl⟩ := hact
      cases r with
      | inr o' =>
        cases ho
        exact h.ret hbefore
      | inl p' =>
        have hsame : slotOf committed (some (i, p')) = s.slot committed c := by
          rw [hbefore, slotOf, show committed p' = some o from ho]
        simpa [Act.event?, Act.after, Act.client, hsame] using h
    | none =>
      rw [hcom] at hact hbefore
      cases r with
      | inr o =>
        obtain ⟨hallows, rfl⟩ := hact
        have hret := (h.effect hbefore hallows).ret (Function.update_self _ _ _)
        rwa [Function.update_idem] at hret
      | inl p' =>
        cases hnext : committed p' with
        | none =>
          obtain rfl : x' = x := by simpa [hnext] using hact
          have hsame : slotOf committed (some (i, p')) = s.slot committed c := by
            rw [hbefore, slotOf, hnext]
          simpa [Act.event?, Act.after, Act.client, hsame] using h
        | some o =>
          obtain ⟨hallows, rfl⟩ : N.allows x i o ∧ x' = N.next x i o := by simpa [hnext] using hact
          have hdone : slotOf committed (some (i, p')) = .done i o := by rw [slotOf, hnext]
          simpa [Act.event?, Act.after, Act.client, hdone] using h.effect hbefore hallows

variable (committed) in
/-- A relation between the component and the object that every act keeps makes the component
linearizable. The object may come to allow more as the run goes on. -/
theorem Run.linearized {N : Shared σ S ι π κ → Machine ι ο α} {R : Shared σ S ι π κ → α → Prop}
    (hstart : ∀ i, committed (M.start i) = none) (hidle : s.Idle) (hR : R s x₀)
    (hsim : ∀ as t a u x, R t x → Ok as t a → Step M t a u →
      (∀ x i o, (N t).allows x i o → (N u).allows x i o ∧ (N u).next x i o = (N t).next x i o) ∧
      ∃ x', R u x' ∧ a.Settles (N u) committed x x')
    (hrun : Run M Ok s as t) :
    ∃ x, R t x ∧ AtomicRun (N t) x₀ (history as) x (t.slot committed) := by
  induction hrun with
  | nil =>
    have hslot : s.slot committed = fun _ => .idle := funext fun c => by
      rw [Shared.slot, hidle c, slotOf]
    exact ⟨x₀, hR, hslot ▸ .nil⟩
  | snoc hrun hok hstep ih =>
    obtain ⟨x, hx, hatomic⟩ := ih
    obtain ⟨hmore, x', hx', hact⟩ := hsim _ _ _ _ _ hx hok hstep
    refine ⟨x', hx', ?_⟩
    rw [history_concat]
    exact (hatomic.imp hmore).step hstart hstep hact

end Simulation

end Hashish.Lib
