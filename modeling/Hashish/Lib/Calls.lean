import Hashish.Lib.Exec

/-!
# Runs of calls, and abstract machines

A component is a state with calls on it. `calls call is s` makes the calls `is`
from the state `s` one after the other, and returns what they returned.

A `Machine` says in abstract terms which answers a call may get. `runs_calls` lifts
what one call does to what every run of calls does: it refines the machine, as long
as each call is made in a state that meets the condition `Ok`.
-/

namespace Hashish.Lib

variable {ι ο α : Type}

/-- An abstract machine: the answers a call `ι` may get, and the state after an answer `ο`. -/
structure Machine (ι ο α : Type) where
  allows : α → ι → ο → Prop
  next : α → ι → ο → α

namespace Machine

/-- The calls and answers of a run of the machine from one state to another. -/
def Trace (M : Machine ι ο α) : α → List ι → List ο → α → Prop
  | a, [], [], a' => a = a'
  | a, i :: is, o :: os, a' => M.allows a i o ∧ Trace M (M.next a i o) is os a'
  | _, _, _, _ => False

/-- The machine that computes its answers. -/
def ofStep (step : α → ι → ο × α) : Machine ι ο α where
  allows a i o := o = (step a i).1
  next a i _ := (step a i).2

/-- The machine that allows every answer and has no state. -/
def any : Machine ι ο Unit := ⟨fun _ _ _ => True, fun _ _ _ => ()⟩

/-- The answers of a machine that computes them, with its last state. -/
def runStep (step : α → ι → ο × α) : α → List ι → List ο × α
  | a, [] => ([], a)
  | a, i :: is =>
    let r := runStep step (step a i).2 is
    ((step a i).1 :: r.1, r.2)

/-- What every step keeps, a run keeps. -/
theorem runStep_keeps {step : α → ι → ο × α} {I : α → Prop} {is : List ι}
    (hstep : ∀ a, ∀ i ∈ is, I a → I (step a i).2) {a : α} (ha : I a) :
    I (runStep step a is).2 := by
  induction is generalizing a with
  | nil => exact ha
  | cons i is ih =>
    exact ih (fun b j hj => hstep b j (.tail _ hj)) (hstep a i (.head _) ha)

theorem runStep_append {step : α → ι → ο × α} (a : α) (is js : List ι) :
    runStep step a (is ++ js) =
      ((runStep step a is).1 ++ (runStep step (runStep step a is).2 js).1,
        (runStep step (runStep step a is).2 js).2) := by
  induction is generalizing a with
  | nil => rfl
  | cons i is ih =>
    rw [List.cons_append, runStep, ih]
    rfl

theorem trace_ofStep {step : α → ι → ο × α} {a a' : α} {is : List ι} {os : List ο}
    (h : (ofStep step).Trace a is os a') : runStep step a is = (os, a') := by
  induction is generalizing a os with
  | nil =>
    cases os with
    | nil => exact congrArg _ h
    | cons o os => exact h.elim
  | cons i is ih =>
    cases os with
    | nil => exact h.elim
    | cons o os =>
      obtain ⟨ho, ht⟩ := h
      have := ih ht
      simp only [runStep, ofStep] at this ho ⊢
      rw [this, ho]

/-- A trace of a machine that allows less and goes on alike. -/
theorem Trace.imp {M N : Machine ι ο α} {a a' : α} {is : List ι} {os : List ο}
    (h : M.Trace a is os a')
    (hMN : ∀ a i o, M.allows a i o → N.allows a i o ∧ N.next a i o = M.next a i o) :
    N.Trace a is os a' := by
  induction is generalizing a os with
  | nil =>
    cases os with
    | nil => exact h
    | cons o os => exact h.elim
  | cons i is ih =>
    cases os with
    | nil => exact h.elim
    | cons o os =>
      obtain ⟨ho, ht⟩ := h
      obtain ⟨ho', hn⟩ := hMN a i o ho
      exact ⟨ho', ih (hn ▸ ht)⟩

/-- One more call at the end of a trace. -/
theorem Trace.concat {M : Machine ι ο α} {a a' : α} {is : List ι} {os : List ο} {i : ι} {o : ο}
    (h : M.Trace a is os a') (ho : M.allows a' i o) :
    M.Trace a (is ++ [i]) (os ++ [o]) (M.next a' i o) := by
  induction is generalizing a os with
  | nil =>
    cases os with
    | nil =>
      obtain rfl : a = a' := h
      exact ⟨ho, rfl⟩
    | cons o os => exact h.elim
  | cons j is ih =>
    cases os with
    | nil => exact h.elim
    | cons o os => exact ⟨h.1, ih h.2⟩

end Machine

section Calls

variable {σ ε S : Type} [Preorder σ]

/-- Make the calls one after the other. -/
def Prog.calls (call : ι → S → Prog σ ε (ο × S)) : List ι → S → Prog σ ε (List ο × S)
  | [], s => pure ([], s)
  | i :: is, s => do
    let (o, s) ← call i s
    let (os, s) ← calls call is s
    pure (o :: os, s)

/-- One call more. -/
theorem Prog.run_calls_concat {call : ι → S → Prog σ ε (ο × S)} {is : List ι} {i : ι} {os : List ο}
    {o : ο} {s s₁ s₂ : S} {w w₁ w₂ : σ} (h : (Prog.calls call is s).run w = .ok ((os, s₁), w₁))
    (hi : (call i s₁).run w₁ = .ok ((o, s₂), w₂)) :
    (Prog.calls call (is ++ [i]) s).run w = .ok ((os ++ [o], s₂), w₂) := by
  induction is generalizing s w os with
  | nil =>
    cases h
    exact Prog.run_bind.mpr ⟨_, _, hi, rfl⟩
  | cons j is ih =>
    obtain ⟨⟨o', s'⟩, w', hj, hrest⟩ := Prog.run_bind.mp h
    obtain ⟨⟨os', s''⟩, w'', hcalls, hlast⟩ := Prog.run_bind.mp hrest
    cases hlast
    exact Prog.run_bind.mpr ⟨_, _, hj, Prog.run_bind.mpr ⟨_, _, ih hcalls, rfl⟩⟩

/-- Each call of the run is made in a state that meets the condition. -/
def Meets (call : ι → S → Prog σ ε (ο × S)) (M : Machine ι ο α) (Ok : α → S → σ → ι → Prop) :
    List ι → α → S → σ → Prop
  | [], _, _, _ => True
  | i :: is, a, s, w => Ok a s w i ∧ ∀ o s' w', (call i s).run w = .ok ((o, s'), w') →
      Meets call M Ok is (M.next a i o) s' w'

variable {call : ι → S → Prog σ ε (ο × S)} {M : Machine ι ο α} {Ok : α → S → σ → ι → Prop}
  {E : ε → Prop} {is : List ι} {a : α} {s : S} {w : σ}

theorem Meets.of_forall (h : ∀ a s w i, Ok a s w i) : Meets call M Ok is a s w := by
  induction is generalizing a s w with
  | nil => trivial
  | cons i is ih => exact ⟨h a s w i, fun _ _ _ _ => ih⟩

theorem Meets.imp {Ok' : α → S → σ → ι → Prop} (h : Meets call M Ok is a s w)
    (hOk : ∀ a s w i, Ok a s w i → Ok' a s w i) : Meets call M Ok' is a s w := by
  induction is generalizing a s w with
  | nil => trivial
  | cons i is ih => exact ⟨hOk _ _ _ _ h.1, fun o s' w' hr => ih (h.2 o s' w' hr)⟩

/-- A condition on concrete states does not depend on the machine. -/
theorem Meets.of_any {Ok : S → σ → ι → Prop}
    (h : Meets call (Machine.any : Machine ι ο Unit) (fun _ => Ok) is () s w) :
    Meets call M (fun _ => Ok) is a s w := by
  induction is generalizing a s w with
  | nil => trivial
  | cons i is ih => exact ⟨h.1, fun o s' w' hr => ih (h.2 o s' w' hr)⟩

/-- The first call of a run whose result is known. -/
theorem Meets.cons {i : ι} {o : ο} {s' : S} {w' : σ} (hok : Ok a s w i)
    (hrun : (call i s).run w = .ok ((o, s'), w')) (hrest : Meets call M Ok is (M.next a i o) s' w') :
    Meets call M Ok (i :: is) a s w := by
  refine ⟨hok, fun o₁ s₁ w₁ hr => ?_⟩
  rw [hrun] at hr
  cases hr
  exact hrest

/-- Make the calls one after the other, and test each. -/
def Prog.met (call : ι → S → Prog σ ε (ο × S)) (M : Machine ι ο α) (ok : α → S → σ → ι → Bool) :
    List ι → α → S → σ → Bool
  | [], _, _, _ => true
  | i :: is, a, s, w =>
    ok a s w i && match (call i s).run w with
    | .ok ((o, s'), w') => met call M ok is (M.next a i o) s' w'
    | .error _ => true

/-- A run whose calls pass the test meets the condition. -/
theorem Meets.of_met {ok : α → S → σ → ι → Bool}
    (hok : ∀ a s w' i, w ≤ w' → ok a s w' i = true → Ok a s w' i)
    (hmet : Prog.met call M ok is a s w = true) : Meets call M Ok is a s w := by
  induction is generalizing a s w with
  | nil => trivial
  | cons i is ih =>
    rw [Prog.met, Bool.and_eq_true] at hmet
    refine ⟨hok a s w i le_rfl hmet.1, fun o s' w' hr => ?_⟩
    have hrest := hmet.2
    rw [hr] at hrest
    exact ih (fun b t w'' j hw => hok b t w'' j (((call i s).grows hr).trans hw)) hrest

/-- What every call of the run keeps, and what implies the condition. -/
theorem Meets.of_invariant {Ok : α → S → σ → ι → Prop} {R : S → σ → α → Prop} (hR : R s w a)
    (hok : ∀ i ∈ is, ∀ a s w, R s w a → Ok a s w i)
    (hstep : ∀ i ∈ is, ∀ a s w, R s w a →
      Partial (call i s) w fun r w' => R r.2 w' (M.next a i r.1)) :
    Meets call M Ok is a s w := by
  induction is generalizing a s w with
  | nil => trivial
  | cons i is ih =>
    refine ⟨hok i List.mem_cons_self a s w hR, fun o s' w' hr => ?_⟩
    have hR' := (hstep i List.mem_cons_self a s w hR).of_run hr
    exact ih hR' (fun j hj => hok j (List.mem_cons_of_mem _ hj))
      fun j hj => hstep j (List.mem_cons_of_mem _ hj)

/-- The answers of a run of calls are answers of machines that may depend on the states around each
call. -/
def Prog.Traces (call : ι → S → Prog σ ε (ο × S)) (M : σ → σ → Machine ι ο α) :
    α → S → σ → List ι → List ο → α → Prop
  | a, _, _, [], [], a' => a = a'
  | a, s, w, i :: is, o :: os, a' => ∃ s' w', (call i s).run w = .ok ((o, s'), w') ∧
      (M w w').allows a i o ∧ Traces call M ((M w w').next a i o) s' w' is os a'
  | _, _, _, _, _, _ => False

/-- Machines that allow more from `w` on and go on alike. -/
theorem Prog.Traces.imp {N N' : σ → σ → Machine ι ο α} {a' : α} {os : List ο}
    (h : Prog.Traces call N a s w is os a')
    (hNN : ∀ w₁ w₂ a i o, w ≤ w₁ → (N w₁ w₂).allows a i o →
      (N' w₁ w₂).allows a i o ∧ (N' w₁ w₂).next a i o = (N w₁ w₂).next a i o) :
    Prog.Traces call N' a s w is os a' := by
  induction is generalizing a s w os with
  | nil =>
    cases os with
    | nil => exact h
    | cons o os => exact h.elim
  | cons i is ih =>
    cases os with
    | nil => exact h.elim
    | cons o os =>
      obtain ⟨s', w', hrun, ho, ht⟩ := h
      obtain ⟨ho', hn⟩ := hNN w w' a i o le_rfl ho
      have hgrows := (call i s).grows hrun
      exact ⟨s', w', hrun, ho', hn ▸ ih ht fun w₁ w₂ b j p hw => hNN w₁ w₂ b j p (hgrows.trans hw)⟩

/-- A machine that does not look at the states. -/
theorem Prog.Traces.trace {a' : α} {os : List ο} (h : Prog.Traces call (fun _ _ => M) a s w is os a') :
    M.Trace a is os a' := by
  induction is generalizing a s w os with
  | nil =>
    cases os with
    | nil => exact h
    | cons o os => exact h.elim
  | cons i is ih =>
    cases os with
    | nil => exact h.elim
    | cons o os =>
      obtain ⟨s', w', -, ho, ht⟩ := h
      exact ⟨ho, ih ht⟩

/-- What holds between concrete and abstract states before a call holds after it, so it holds after
every run, and the answers of the run are answers of the machines. -/
theorem runs_traces {N : σ → σ → Machine ι ο α} {R : S → σ → α → Prop} (hR : R s w a)
    (hm : Meets call M Ok is a s w)
    (hstep : ∀ i s w a, R s w a → Ok a s w i → Runs E (call i s) w fun r w' =>
      (N w w').allows a i r.1 ∧ (N w w').next a i r.1 = M.next a i r.1 ∧ R r.2 w' (M.next a i r.1)) :
    Runs E (Prog.calls call is s) w fun r w' =>
      ∃ a', Prog.Traces call N a s w is r.1 a' ∧ R r.2 w' a' := by
  induction is generalizing a s w with
  | nil => exact ⟨a, rfl, hR⟩
  | cons i is ih =>
    obtain ⟨hok, hnext⟩ := hm
    rw [Prog.calls]
    refine Runs.bind (hstep i s w a hR hok).and_run fun r w₁ _ h₁ => ?_
    obtain ⟨⟨ho, hn, hR₁⟩, hrun⟩ := h₁
    rw [runs_bind]
    refine (ih hR₁ (hnext _ _ _ hrun)).imp fun r' w₂ h₂ => ?_
    obtain ⟨a', ht, hR₂⟩ := h₂
    exact ⟨a', ⟨r.2, w₁, hrun, ho, hn.symm ▸ ht⟩, hR₂⟩

/-- The same for one machine. -/
theorem runs_calls {R : S → σ → α → Prop} (hR : R s w a) (hm : Meets call M Ok is a s w)
    (hstep : ∀ i s w a, R s w a → Ok a s w i →
      Runs E (call i s) w fun r w' => M.allows a i r.1 ∧ R r.2 w' (M.next a i r.1)) :
    Runs E (Prog.calls call is s) w fun r w' => ∃ a', M.Trace a is r.1 a' ∧ R r.2 w' a' :=
  (runs_traces (N := fun _ _ => M) hR hm fun i s w a hR hok =>
    (hstep i s w a hR hok).imp fun _ _ h => ⟨h.1, rfl, h.2⟩).imp
      fun _ _ ⟨a', ht, hR'⟩ => ⟨a', ht.trace, hR'⟩

theorem runs_calls_cons {i : ι} {Q : List ο × S → σ → Prop}
    (h : Runs E (call i s) w fun r w' =>
      Runs E (Prog.calls call is r.2) w' fun r' w'' => Q (r.1 :: r'.1, r'.2) w'') :
    Runs E (Prog.calls call (i :: is) s) w Q := by
  rw [Prog.calls, runs_bind]
  exact h.imp fun r w' h' => runs_bind.mpr h'

/-- Two runs one after the other. -/
theorem runs_calls_append {js : List ι} {Q : List ο × S → σ → Prop}
    (h : Runs E (Prog.calls call is s) w fun r w' =>
      Runs E (Prog.calls call js r.2) w' fun r' w'' => Q (r.1 ++ r'.1, r'.2) w'') :
    Runs E (Prog.calls call (is ++ js) s) w Q := by
  induction is generalizing s w Q with
  | nil => exact h
  | cons i is ih =>
    rw [Prog.calls, runs_bind] at h
    refine runs_calls_cons (h.imp fun r w₁ h₁ => ?_)
    rw [runs_bind] at h₁
    exact ih (Q := fun r' w' => Q (r.1 :: r'.1, r'.2) w') h₁

/-- As `runs_calls`, with an invariant that knows how many calls are left. -/
theorem runs_calls_counted {R : Nat → S → σ → α → Prop} (hR : R is.length s w a)
    (hstep : ∀ i ∈ is, ∀ n s w a, R (n + 1) s w a →
      Runs E (call i s) w fun r w' => M.allows a i r.1 ∧ R n r.2 w' (M.next a i r.1)) :
    Runs E (Prog.calls call is s) w fun r w' => ∃ a', M.Trace a is r.1 a' ∧ R 0 r.2 w' a' := by
  induction is generalizing a s w with
  | nil => exact ⟨a, rfl, hR⟩
  | cons i is ih =>
    rw [Prog.calls]
    refine Runs.bind (hstep i List.mem_cons_self _ s w a hR) fun r w₁ _ h₁ => ?_
    obtain ⟨ho, hR₁⟩ := h₁
    rw [runs_bind]
    refine (ih hR₁ fun j hj => hstep j (List.mem_cons_of_mem _ hj)).imp fun r' w₂ h₂ => ?_
    obtain ⟨a', ht, hR₂⟩ := h₂
    exact ⟨a', ⟨ho, ht⟩, hR₂⟩

end Calls

end Hashish.Lib
