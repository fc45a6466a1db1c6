import Mathlib.Order.Basic

/-!
# Programs over a growing state

A program reads and changes a state, and either faults or returns a value. The
state only ever grows along a preorder: the proof travels with the program, so
that no caller proves it again.

`Runs E m s Q` is the triple of this library. From the state `s` the program
`m` either faults with a fault that `E` allows, or returns a value and a state
that satisfy `Q`. `Total` allows no fault, `Partial` allows every fault.
-/

namespace Hashish.Lib

/-- A computation that has returned hands its value on. -/
@[simp] theorem ok_bind {ε α β : Type} (a : α) (f : α → Except ε β) :
    (Except.ok a >>= f) = f a := rfl

/-- A program over the state `σ` with faults `ε` and results `α`. -/
structure Prog (σ ε : Type) [Preorder σ] (α : Type) where
  run : σ → Except ε (α × σ)
  grows : ∀ {s a s'}, run s = .ok (a, s') → s ≤ s'

namespace Prog

variable {σ ε α β : Type} [Preorder σ]

/-- Return a value and leave the state alone. -/
protected def pure (a : α) : Prog σ ε α :=
  ⟨fun s => .ok (a, s), fun h => by cases h; exact le_rfl⟩

/-- Run `m`, then the program that `f` gives for its value. A fault ends the run. -/
protected def bind (m : Prog σ ε α) (f : α → Prog σ ε β) : Prog σ ε β where
  run s := match m.run s with
    | .ok (a, s') => (f a).run s'
    | .error e => .error e
  grows {s b s''} h := by
    cases hm : m.run s with
    | error e => rw [hm] at h; cases h
    | ok p =>
      obtain ⟨a, s'⟩ := p
      rw [hm] at h
      exact (m.grows hm).trans ((f a).grows h)

instance : Monad (Prog σ ε) where
  pure := Prog.pure
  bind := Prog.bind

theorem ext {m m' : Prog σ ε α} (h : m.run = m'.run) : m = m' := by
  cases m
  cases m'
  cases h
  rfl

instance : LawfulMonad (Prog σ ε) := by
  refine LawfulMonad.mk' _ (fun m => ext <| funext fun s => ?_) (fun _ _ => rfl)
    (fun m f g => ext <| funext fun s => ?_)
  · show (match m.run s with | .ok (a, s') => Except.ok (id a, s') | .error e => .error e) = m.run s
    cases m.run s <;> rfl
  · show (Prog.bind (Prog.bind m f) g).run s = (Prog.bind m fun a => Prog.bind (f a) g).run s
    simp only [Prog.bind]
    cases m.run s <;> rfl

theorem run_bind {m : Prog σ ε α} {f : α → Prog σ ε β} {s s'' : σ} {b : β} :
    (m >>= f).run s = .ok (b, s'') ↔ ∃ a s', m.run s = .ok (a, s') ∧ (f a).run s' = .ok (b, s'') := by
  show (match m.run s with | .ok (a, s') => (f a).run s' | .error e => .error e) = _ ↔ _
  constructor
  · intro h
    cases hm : m.run s with
    | error e => rw [hm] at h; cases h
    | ok p => rw [hm] at h; exact ⟨p.1, p.2, rfl, h⟩
  · rintro ⟨a, s', hm, hf⟩
    rw [hm]
    exact hf

theorem run_bind_of {m : Prog σ ε α} {f : α → Prog σ ε β} {s s' : σ} {a : α}
    (h : m.run s = .ok (a, s')) : (m >>= f).run s = (f a).run s' := by
  show (match m.run s with | .ok (a, s') => (f a).run s' | .error e => .error e) = _
  rw [h]

/-- End the run with the fault `e`. -/
def fault (e : ε) : Prog σ ε α :=
  ⟨fun _ => .error e, fun h => by cases h⟩

/-- Change the state with a function that only grows it, and return its value. -/
def step (f : σ → α × σ) (hf : ∀ s, s ≤ (f s).2) : Prog σ ε α :=
  ⟨fun s => .ok (f s), fun {s a s'} h => by
    have he : f s = (a, s') := by injection h
    simpa [he] using hf s⟩

/-- Run a pure computation that may fault. -/
def ofExcept (x : Except ε α) : Prog σ ε α :=
  ⟨fun s => x.map (·, s), fun {s a s'} h => by
    cases x with
    | error e => cases h
    | ok b => cases h; exact le_rfl⟩

/-- `for` from `i` on, `n` times. -/
def forUp (body : Nat → α → Prog σ ε α) : Nat → Nat → α → Prog σ ε α
  | 0, _, a => pure a
  | n + 1, i, a => do
    let a ← body i a
    forUp body n (i + 1) a

end Prog

section Triples

variable {σ ε α β : Type} [Preorder σ] {E : ε → Prop} {m : Prog σ ε α} {s : σ}

/-- The triple: `m` from `s` faults within `E`, or returns within `Q`. -/
def Runs (E : ε → Prop) (m : Prog σ ε α) (s : σ) (Q : α → σ → Prop) : Prop :=
  match m.run s with
  | .ok (a, s') => Q a s'
  | .error e => E e

instance [DecidablePred E] {Q : α → σ → Prop} [∀ a s, Decidable (Q a s)] : Decidable (Runs E m s Q) :=
  match h : m.run s with
  | .ok (a, s') => decidable_of_iff (Q a s') (by rw [Runs, h])
  | .error e => decidable_of_iff (E e) (by rw [Runs, h])

/-- The program returns, and its result satisfies `Q`. -/
abbrev Total (m : Prog σ ε α) (s : σ) (Q : α → σ → Prop) : Prop :=
  Runs (fun _ => False) m s Q

/-- If the program returns, its result satisfies `Q`. -/
abbrev Partial (m : Prog σ ε α) (s : σ) (Q : α → σ → Prop) : Prop :=
  Runs (fun _ => True) m s Q

/-! ## Rules of the constructors -/

@[simp] theorem runs_pure {Q : α → σ → Prop} {a : α} :
    Runs E (pure a : Prog σ ε α) s Q ↔ Q a s := Iff.rfl

@[simp] theorem runs_bind {f : α → Prog σ ε β} {Q : β → σ → Prop} :
    Runs E (m >>= f) s Q ↔ Runs E m s fun a s' => Runs E (f a) s' Q := by
  show Runs E (Prog.bind m f) s Q ↔ _
  simp only [Runs, Prog.bind]
  cases m.run s <;> exact Iff.rfl

@[simp] theorem runs_map {f : α → β} {Q : β → σ → Prop} :
    Runs E (f <$> m) s Q ↔ Runs E m s fun a s' => Q (f a) s' := by
  rw [map_eq_pure_bind, runs_bind]
  rfl

@[simp] theorem runs_fault {Q : α → σ → Prop} {e : ε} :
    Runs E (Prog.fault e : Prog σ ε α) s Q ↔ E e := Iff.rfl

@[simp] theorem runs_step {f : σ → α × σ} {hf : ∀ s, s ≤ (f s).2} {Q : α → σ → Prop} :
    Runs E (Prog.step f hf : Prog σ ε α) s Q ↔ Q (f s).1 (f s).2 := Iff.rfl

theorem runs_ofExcept {Q : α → σ → Prop} {x : Except ε α} {a : α} (hx : x = .ok a) (h : Q a s) :
    Runs E (Prog.ofExcept x) s Q := by
  subst hx
  exact h

theorem runs_ite {c : Prop} [Decidable c] {m' : Prog σ ε α} {Q : α → σ → Prop} :
    Runs E (if c then m else m') s Q ↔ (c → Runs E m s Q) ∧ (¬ c → Runs E m' s Q) := by
  by_cases h : c <;> simp [h]

/-! ## Structural rules -/

/-- The rule of consequence. -/
theorem Runs.imp {Q R : α → σ → Prop} (h : Runs E m s Q) (hQR : ∀ a s', Q a s' → R a s') :
    Runs E m s R := by
  unfold Runs at h ⊢
  cases hm : m.run s with
  | ok p => rw [hm] at h; exact hQR p.1 p.2 h
  | error e => rw [hm] at h; exact h

/-- More faults may be allowed. -/
theorem Runs.mono_fault {F : ε → Prop} {Q : α → σ → Prop} (h : Runs E m s Q)
    (hEF : ∀ e, E e → F e) : Runs F m s Q := by
  unfold Runs at h ⊢
  cases hm : m.run s with
  | ok p => rw [hm] at h; exact h
  | error e => rw [hm] at h; exact hEF e h

/-- A program that returns satisfies its triple whatever faults are allowed. -/
theorem Runs.of_total {Q : α → σ → Prop} (h : Total m s Q) : Runs E m s Q :=
  h.mono_fault fun _ hf => hf.elim

/-- The state after a run lies above the state before it. -/
theorem Runs.and_grows {Q : α → σ → Prop} (h : Runs E m s Q) :
    Runs E m s fun a s' => s ≤ s' ∧ Q a s' := by
  unfold Runs at h ⊢
  cases hm : m.run s with
  | ok p => rw [hm] at h; exact ⟨m.grows hm, h⟩
  | error e => rw [hm] at h; exact h

/-- Sequencing with a known triple of the first program. -/
theorem Runs.bind {f : α → Prog σ ε β} {Q : α → σ → Prop} {R : β → σ → Prop}
    (hm : Runs E m s Q) (hf : ∀ a s', s ≤ s' → Q a s' → Runs E (f a) s' R) :
    Runs E (m >>= f) s R :=
  runs_bind.mpr (hm.and_grows.imp fun a s' h => hf a s' h.1 h.2)

/-- The rule of the `for` loop, with an invariant that knows the index. -/
theorem runs_forUp {body : Nat → α → Prog σ ε α} {I : Nat → α → σ → Prop} {n i : Nat} {a : α}
    (h : I i a s)
    (hbody : ∀ j a s, i ≤ j → j < i + n → I j a s → Runs E (body j a) s (I (j + 1))) :
    Runs E (Prog.forUp body n i a) s (I (i + n)) := by
  induction n generalizing i a s with
  | zero => exact h
  | succ n ih =>
    refine Runs.bind (hbody i a s (Nat.le_refl i) (by omega) h) fun a' s' _ h' => ?_
    have := ih h' fun j a s hj hjn => hbody j a s (by omega) (by omega)
    rwa [Nat.succ_add_eq_add_succ] at this

theorem total_iff {Q : α → σ → Prop} :
    Total m s Q ↔ ∃ a s', m.run s = .ok (a, s') ∧ Q a s' := by
  unfold Total Runs
  constructor
  · intro h
    cases hm : m.run s with
    | ok p => rw [hm] at h; exact ⟨p.1, p.2, rfl, h⟩
    | error e => rw [hm] at h; exact h.elim
  · rintro ⟨a, s', hm, hQ⟩
    rw [hm]
    exact hQ

theorem partial_iff {Q : α → σ → Prop} :
    Partial m s Q ↔ ∀ a s', m.run s = .ok (a, s') → Q a s' := by
  unfold Partial Runs
  constructor
  · intro h a s' hm
    rw [hm] at h
    exact h
  · intro h
    cases hm : m.run s with
    | ok p => exact h p.1 p.2 hm
    | error e => trivial

/-- A partial triple adds to what is known of the results. -/
theorem Runs.and_returned {Q R : α → σ → Prop} (h : Runs E m s Q) (hp : Partial m s R) :
    Runs E m s fun a s' => Q a s' ∧ R a s' := by
  unfold Partial Runs at *
  cases hm : m.run s with
  | ok p => rw [hm] at h hp; exact ⟨h, hp⟩
  | error e => rw [hm] at h; exact h

/-- What the triple says, it says of the result of the run. -/
theorem Runs.and_run {Q : α → σ → Prop} (h : Runs E m s Q) :
    Runs E m s fun a s' => Q a s' ∧ m.run s = .ok (a, s') :=
  h.and_returned (partial_iff.mpr fun _ _ hm => hm)

/-- Every program keeps the trivial partial triple. -/
theorem partial_trivial : Partial m s fun _ _ => True :=
  partial_iff.mpr fun _ _ _ => trivial

/-- A first program of which nothing is known. -/
theorem partial_bind {f : α → Prog σ ε β} {R : β → σ → Prop}
    (hf : ∀ a s', Partial (f a) s' R) : Partial (m >>= f) s R :=
  Runs.bind (Q := fun _ _ => True) partial_trivial fun a s' _ _ => hf a s'

/-- The triple read at a known run. -/
theorem Runs.of_run {Q : α → σ → Prop} {a : α} {s' : σ} (h : Runs E m s Q)
    (hm : m.run s = .ok (a, s')) : Q a s' := by
  unfold Runs at h
  rw [hm] at h
  exact h

end Triples

end Hashish.Lib
