import Hashish.Lib.Calls
import Mathlib.Data.Finset.Card
import Mathlib.Data.List.Basic
import Mathlib.Logic.Function.Basic

/-!
# Clients that share a component

A call on a component goes through stages. What it does in one stage, its section, is
atomic; between two sections of a call other clients may run theirs. A run is a list of
acts: a client starts a call, or makes the section of the stage it is at.

* `Run.invariant`: what the start has and every act keeps holds at the end of every run.
* `Run.flow`: how often calls reached a place and left it, and who is there.
* `Run.of_calls`, `Run.calls_of_alone`: a run of one client is its calls, one after the other.
-/

namespace Hashish.Lib

variable {σ ε S ι π ο κ : Type} [Preorder σ]

/-- The calls `ι` on a component with the state `S`. A section leads to the next stage `π` or to
the answer `ο` of the call. -/
structure Protocol (σ ε S ι π ο : Type) [Preorder σ] where
  start : ι → π
  advance : π → S → Prog σ ε ((π ⊕ ο) × S)

/-- Go on with a call that nobody interrupts, for at most `n` sections. -/
def Protocol.alone (M : Protocol σ ε S ι π ο) (stuck : ε) : Nat → π → S → Prog σ ε (ο × S)
  | 0, _, _ => Prog.fault stuck
  | n + 1, p, s => do
    let (r, s) ← M.advance p s
    match r with
    | .inl p => M.alone stuck n p s
    | .inr o => pure (o, s)

/-- The component, and where the calls of the clients `κ` stand. -/
structure Shared (σ S ι π κ : Type) where
  state : S
  world : σ
  pending : κ → Option (ι × π)

/-- The client `c` starts the call `i`, or makes the section of the stage `p`, which leads to `r`. -/
inductive Act (ι π ο κ : Type)
  | call (c : κ) (i : ι)
  | go (c : κ) (i : ι) (p : π) (r : π ⊕ ο)

/-- The answer that the act gives to a call of the client. -/
def Act.answer? [DecidableEq κ] (c : κ) : Act ι π ο κ → Option (ι × ο)
  | .go c' i _ (.inr o) => if c' = c then some (i, o) else none
  | _ => none

/-- The calls of the client that were answered, with the answers. -/
def answers [DecidableEq κ] (c : κ) (as : List (Act ι π ο κ)) : List (ι × ο) :=
  as.filterMap (Act.answer? c)

variable {M : Protocol σ ε S ι π ο} [DecidableEq κ] {s t u : Shared σ S ι π κ}
  {a : Act ι π ο κ} {as bs : List (Act ι π ο κ)}
  {Ok : List (Act ι π ο κ) → Shared σ S ι π κ → Act ι π ο κ → Prop}

theorem answers_concat {c : κ} : answers c (as ++ [a]) = answers c as ++ (a.answer? c).toList := by
  rw [answers, List.filterMap_append, ← answers]
  cases h : a.answer? c <;> simp [h]

/-- The client that makes the act. -/
def Act.client : Act ι π ο κ → κ
  | .call c _ => c
  | .go c _ _ _ => c

theorem Act.answer?_of_ne {c : κ} (hc : a.client ≠ c) : a.answer? c = none := by
  cases a with
  | call c' i => rfl
  | go c' i p r => cases r <;> simp [Act.answer?, show c' ≠ c from hc]

/-- One act of a client. -/
inductive Step (M : Protocol σ ε S ι π ο) :
    Shared σ S ι π κ → Act ι π ο κ → Shared σ S ι π κ → Prop
  | call {s : Shared σ S ι π κ} {c : κ} {i : ι} (h : s.pending c = none) :
      Step M s (.call c i)
        { s with pending := Function.update s.pending c (some (i, M.start i)) }
  | go {s : Shared σ S ι π κ} {c : κ} {i : ι} {p : π} {r : π ⊕ ο} {s' : S} {w' : σ}
      (h : s.pending c = some (i, p)) (hrun : (M.advance p s.state).run s.world = .ok ((r, s'), w')) :
      Step M s (.go c i p r)
        ⟨s', w', Function.update s.pending c (r.getLeft?.map fun p' => (i, p'))⟩

/-- A run, each act of which meets the condition `Ok` on the acts before it, the state and itself. -/
inductive Run (M : Protocol σ ε S ι π ο)
    (Ok : List (Act ι π ο κ) → Shared σ S ι π κ → Act ι π ο κ → Prop) (s : Shared σ S ι π κ) :
    List (Act ι π ο κ) → Shared σ S ι π κ → Prop
  | nil : Run M Ok s [] s
  | snoc {as : List (Act ι π ο κ)} {t u : Shared σ S ι π κ} {a : Act ι π ο κ}
      (hrun : Run M Ok s as t) (hok : Ok as t a) (hstep : Step M t a u) : Run M Ok s (as ++ [a]) u

namespace Run

/-- What the start has and every act keeps holds at the end of the run. -/
theorem invariant {I : List (Act ι π ο κ) → Shared σ S ι π κ → Prop} (hrun : Run M Ok s as t)
    (hstart : I [] s)
    (hkeep : ∀ as t a u, I as t → Ok as t a → Step M t a u → I (as ++ [a]) u) : I as t := by
  induction hrun with
  | nil => exact hstart
  | snoc _ hok hstep ih => exact hkeep _ _ _ _ ih hok hstep

theorem imp {Ok' : List (Act ι π ο κ) → Shared σ S ι π κ → Act ι π ο κ → Prop}
    (hrun : Run M Ok s as t) (h : ∀ as t a, Ok as t a → Ok' as t a) : Run M Ok' s as t := by
  induction hrun with
  | nil => exact .nil
  | snoc _ hok hstep ih => exact ih.snoc (h _ _ _ hok) hstep

/-- A condition that does not look back. -/
theorem append {Ok : Shared σ S ι π κ → Act ι π ο κ → Prop} (h₁ : Run M (fun _ => Ok) s as t)
    (h₂ : Run M (fun _ => Ok) t bs u) : Run M (fun _ => Ok) s (as ++ bs) u := by
  induction h₂ with
  | nil => rwa [List.append_nil]
  | snoc _ hok hstep ih =>
    rw [← List.append_assoc]
    exact ih.snoc hok hstep

end Run

/-! ## Where the calls are -/

/-- The client has a call at a stage of `q`. -/
def Shared.isAt (s : Shared σ S ι π κ) (q : ι → π → Bool) (c : κ) : Bool :=
  (s.pending c).any fun ip => q ip.1 ip.2

/-- No client has a call in progress. -/
def Shared.Idle (s : Shared σ S ι π κ) : Prop := ∀ c, s.pending c = none

/-- The act leads a call to a stage of `q` from elsewhere. -/
def Act.enters (M : Protocol σ ε S ι π ο) (q : ι → π → Bool) : Act ι π ο κ → Bool
  | .call _ i => q i (M.start i)
  | .go _ i p r => !q i p && r.getLeft?.any (q i)

/-- The act leads a call from a stage of `q` to elsewhere. -/
def Act.leaves (q : ι → π → Bool) : Act ι π ο κ → Bool
  | .call _ _ => false
  | .go _ i p r => q i p && !r.getLeft?.any (q i)

section Flow

variable {q : ι → π → Bool}

omit [Preorder σ] [DecidableEq κ] in
theorem Shared.Idle.isAt (h : s.Idle) (c : κ) : s.isAt q c = false := by
  rw [Shared.isAt, h c]
  rfl

theorem Step.pending_other (h : Step M s a t) {c : κ} (hc : c ≠ a.client) :
    t.pending c = s.pending c := by
  cases h with
  | call _ => exact Function.update_of_ne hc _ _
  | go _ _ => exact Function.update_of_ne hc _ _

/-- Where the act leaves its client. -/
def Act.after (M : Protocol σ ε S ι π ο) : Act ι π ο κ → Option (ι × π)
  | .call _ i => some (i, M.start i)
  | .go _ i _ r => r.getLeft?.map fun p => (i, p)

theorem Step.pending_self (h : Step M s a t) : t.pending a.client = a.after M := by
  cases h with
  | call _ => exact Function.update_self _ _ _
  | go _ _ => exact Function.update_self _ _ _

/-- A call that is in progress was started before, or just now. -/
theorem Step.pending_call (h : Step M s a t) {c : κ} {i : ι} {p : π}
    (hp : t.pending c = some (i, p)) : a = .call c i ∨ ∃ p', s.pending c = some (i, p') := by
  by_cases hc : c = a.client
  · subst hc
    cases h with
    | @call c j h =>
      simp only [Act.client, Function.update_self, Option.some.injEq, Prod.mk.injEq] at hp ⊢
      exact .inl (by rw [hp.1])
    | @go c j q r s' w' h hrun =>
      simp only [Act.client, Function.update_self, Option.map_eq_some_iff, Prod.mk.injEq] at hp
      obtain ⟨-, -, rfl, -⟩ := hp
      exact .inr ⟨q, h⟩
  · exact .inr ⟨p, (h.pending_other hc).symm.trans hp⟩

theorem Step.enters (h : Step M s a t) :
    a.enters M q = (!s.isAt q a.client && t.isAt q a.client) := by
  cases h with
  | call h => simp [Act.enters, Shared.isAt, Act.client, h]
  | @go c i p r _ _ h _ => cases r <;> simp [Act.enters, Shared.isAt, Act.client, h]

theorem Step.leaves (h : Step M s a t) :
    a.leaves q = (s.isAt q a.client && !t.isAt q a.client) := by
  cases h with
  | call h => simp [Act.leaves, Shared.isAt, Act.client, h]
  | @go c i p r _ _ h _ => cases r <;> simp [Act.leaves, Shared.isAt, Act.client, h]

/-- Calls that have reached a stage of `q` and have not left it are at one. -/
theorem Run.flow (hrun : Run M Ok s as t) (hs : ∀ c, s.isAt q c = false) :
    ∃ P : Finset κ, (∀ c, c ∈ P ↔ t.isAt q c = true) ∧
      as.countP (Act.enters M q) = as.countP (Act.leaves q) + P.card := by
  refine hrun.invariant (I := fun as t => ∃ P : Finset κ, (∀ c, c ∈ P ↔ t.isAt q c = true) ∧
    as.countP (Act.enters M q) = as.countP (Act.leaves q) + P.card) ⟨∅, by simp [hs], rfl⟩ ?_
  rintro as t a u ⟨P, hP, hcount⟩ - hstep
  have hother : ∀ c, c ≠ a.client → (c ∈ P ↔ u.isAt q c = true) := fun c hc => by
    rw [hP, Shared.isAt, Shared.isAt, hstep.pending_other hc]
  simp only [List.countP_append, List.countP_singleton, hstep.enters, hstep.leaves]
  have hmem := hP a.client
  cases hbefore : t.isAt q a.client <;> cases hafter : u.isAt q a.client
  · refine ⟨P, fun c => ?_, by simp [hcount]⟩
    by_cases hc : c = a.client
    · simp [hc, hafter, hmem, hbefore]
    · exact hother c hc
  · refine ⟨insert a.client P, fun c => ?_, ?_⟩
    · by_cases hc : c = a.client
      · simp [hc, hafter]
      · simp [hc, hother c hc]
    · rw [Finset.card_insert_of_notMem (by simp [hmem, hbefore])]
      simp [hcount]
      omega
  · refine ⟨P.erase a.client, fun c => ?_, ?_⟩
    · by_cases hc : c = a.client
      · simp [hc, hafter]
      · simp [hc, hother c hc]
    · have hin : a.client ∈ P := hmem.mpr hbefore
      have := Finset.card_erase_add_one hin
      simp [hcount]
      omega
  · refine ⟨P, fun c => ?_, by simp [hcount]⟩
    by_cases hc : c = a.client
    · simp [hc, hafter, hmem, hbefore]
    · exact hother c hc

/-- No call leaves a stage it has not reached. -/
theorem Run.leaves_le (hrun : Run M Ok s as t) (hs : ∀ c, s.isAt q c = false) :
    as.countP (Act.leaves q) ≤ as.countP (Act.enters M q) := by
  obtain ⟨P, -, h⟩ := hrun.flow hs
  omega

/-- When no call is at a stage of `q`, each has left the stages it reached. -/
theorem Run.leaves_eq (hrun : Run M Ok s as t) (hs : ∀ c, s.isAt q c = false)
    (ht : ∀ c, t.isAt q c = false) : as.countP (Act.leaves q) = as.countP (Act.enters M q) := by
  obtain ⟨P, hP, h⟩ := hrun.flow hs
  have hempty : P = ∅ := Finset.eq_empty_of_forall_notMem fun c hc => by
    have := (hP c).mp hc
    rw [ht] at this
    cases this
  rw [h, hempty, Finset.card_empty, Nat.add_zero]

end Flow

/-! ## Calls that nobody interrupts -/

section Alone

variable {stuck : ε} {n : Nat} {c : κ} (hok : ∀ as t a, a.client = c → Ok as t a)

include hok

/-- The rest of a call that nobody interrupts. -/
theorem Run.alone {i : ι} {p : π} {o : ο} {s' : S} {w' : σ} (h : Run M Ok s as t)
    (hpending : t.pending c = some (i, p))
    (hrun : (M.alone stuck n p t.state).run t.world = .ok ((o, s'), w')) :
    ∃ bs, Run M Ok s bs ⟨s', w', Function.update t.pending c none⟩ ∧
      answers c bs = answers c as ++ [(i, o)] ∧ bs.length ≤ as.length + n := by
  induction n generalizing as t p with
  | zero => cases hrun
  | succ n ih =>
    obtain ⟨⟨r, s₁⟩, w₁, hsection, hrest⟩ := Prog.run_bind.mp hrun
    have h' := h.snoc (hok _ _ _ rfl) (.go hpending hsection)
    cases r with
    | inr o' =>
      cases hrest
      refine ⟨_, h', ?_, ?_⟩
      · rw [answers_concat]
        simp [Act.answer?]
      · rw [List.length_append, List.length_singleton]
        omega
    | inl p' =>
      obtain ⟨bs, hbs, hans, hlen⟩ := ih h' (Function.update_self _ _ _) hrest
      refine ⟨bs, ?_, ?_, ?_⟩
      · simpa [Function.update_idem] using hbs
      · rw [hans, answers_concat]
        simp [Act.answer?]
      · rw [List.length_append, List.length_singleton] at hlen
        omega

/-- Calls of one client, one after the other, that nobody interrupts. -/
theorem Run.of_calls {is : List ι} {os : List ο} {s' : S} {w' : σ} (h : Run M Ok s as t)
    (hidle : t.Idle)
    (hrun : (Prog.calls (fun i => M.alone stuck n (M.start i)) is t.state).run t.world =
      .ok ((os, s'), w')) :
    ∃ bs u, Run M Ok s bs u ∧ u.Idle ∧ u.state = s' ∧ u.world = w' ∧
      answers c bs = answers c as ++ is.zip os := by
  induction is generalizing as t os with
  | nil =>
    cases hrun
    exact ⟨as, t, h, hidle, rfl, rfl, (List.append_nil _).symm⟩
  | cons i is ih =>
    obtain ⟨⟨o, s₁⟩, w₁, hcall, hrest⟩ := Prog.run_bind.mp hrun
    obtain ⟨⟨os', s₂⟩, w₂, hcalls, hlast⟩ := Prog.run_bind.mp hrest
    cases hlast
    have h' := h.snoc (hok _ _ (.call c i) rfl) (.call (hidle c))
    obtain ⟨bs, hbs, hans, -⟩ := h'.alone hok (Function.update_self _ _ _) hcall
    have hback : Function.update (Function.update t.pending c (some (i, M.start i))) c none =
        t.pending := by
      rw [Function.update_idem, ← hidle c, Function.update_eq_self]
    rw [hback] at hbs
    obtain ⟨bs', u, hu, hidle', hs, hw, hans'⟩ := ih hbs hidle hcalls
    refine ⟨bs', u, hu, hidle', hs, hw, ?_⟩
    rw [hans', hans, answers_concat, List.zip_cons_cons]
    simp [Act.answer?]

end Alone

section OneClient

variable {stuck : ε} {n : Nat} {c : κ} {rank : π → Nat}

/-- What the client has called since `s`: the calls that were answered, and then the part of the one
in progress that led to where it stands. -/
def Caught (M : Protocol σ ε S ι π ο) (stuck : ε) (n : Nat) (rank : π → Nat) (c : κ)
    (s : Shared σ S ι π κ) (as : List (Act ι π ο κ)) (t : Shared σ S ι π κ) : Prop :=
  ∃ s' w', (Prog.calls (fun i => M.alone stuck n (M.start i)) ((answers c as).map Prod.fst)
      s.state).run s.world = .ok (((answers c as).map Prod.snd, s'), w') ∧
    match t.pending c with
    | none => t.state = s' ∧ t.world = w'
    | some (i, p) => ∃ m, rank p ≤ m ∧
        (M.alone stuck n (M.start i) s').run w' = (M.alone stuck m p t.state).run t.world

/-- When only one client runs, its calls are made one after the other. -/
theorem Run.calls_of_alone (hstart : ∀ i, rank (M.start i) ≤ n)
    (hrank : ∀ p s, ∀ w, Partial (M.advance p s) w fun r _ => 0 < rank p ∧
      ∀ p', r.1 = .inl p' → rank p' < rank p)
    (hidle : s.pending c = none) (hrun : Run M Ok s as t) (honly : ∀ a ∈ as, a.client = c) :
    Caught M stuck n rank c s as t := by
  induction hrun with
  | nil => exact ⟨_, _, rfl, by rw [hidle]; exact ⟨rfl, rfl⟩⟩
  | @snoc as t u a hrun hok hstep ih =>
    obtain ⟨s', w', hcalls, hplace⟩ := ih fun b hb => honly b (List.mem_append_left _ hb)
    obtain rfl : a.client = c := honly a (by simp)
    rw [Caught, answers_concat]
    cases hstep with
    | @call c i h =>
      dsimp only [Act.client] at h hplace hcalls ⊢
      rw [h] at hplace
      obtain ⟨rfl, rfl⟩ := hplace
      refine ⟨_, _, by simpa [Act.answer?] using hcalls, ?_⟩
      rw [Function.update_self]
      exact ⟨n, hstart i, rfl⟩
    | @go c i p r s₁ w₁ h hsection =>
      dsimp only [Act.client] at h hplace hcalls ⊢
      rw [h] at hplace
      obtain ⟨m, hm, heq⟩ := hplace
      obtain ⟨hpos, hdrop⟩ := (hrank p t.state t.world).of_run hsection
      obtain ⟨m, rfl⟩ := Nat.exists_eq_add_one_of_ne_zero (Nat.lt_of_lt_of_le hpos hm).ne'
      rw [Function.update_self]
      cases r with
      | inl p' =>
        have hnext : (M.alone stuck (m + 1) p t.state).run t.world =
            (M.alone stuck m p' s₁).run w₁ := by
          rw [Protocol.alone, Prog.run_bind_of hsection]
        have hlt := hdrop p' rfl
        exact ⟨s', w', by simpa [Act.answer?] using hcalls, m, by omega, heq.trans hnext⟩
      | inr o =>
        have hlast : (M.alone stuck (m + 1) p t.state).run t.world = .ok ((o, s₁), w₁) := by
          rw [Protocol.alone, Prog.run_bind_of hsection]
          rfl
        refine ⟨s₁, w₁, ?_, rfl, rfl⟩
        have hmore := Prog.run_calls_concat hcalls (heq.trans hlast)
        simpa [Act.answer?] using hmore

end OneClient

/-! ## Schedules -/

/-- The next act of a client: the start of a call, or without one the next section of its call. -/
def Protocol.next (M : Protocol σ ε S ι π ο) (s : Shared σ S ι π κ) (c : κ) (i : Option ι) :
    Option (Act ι π ο κ × Shared σ S ι π κ) :=
  match s.pending c, i with
  | none, some i => some (.call c i,
      { s with pending := Function.update s.pending c (some (i, M.start i)) })
  | some (i, p), none =>
    match (M.advance p s.state).run s.world with
    | .ok ((r, s'), w') => some (.go c i p r,
        ⟨s', w', Function.update s.pending c (r.getLeft?.map fun p' => (i, p'))⟩)
    | .error _ => none
  | _, _ => none

/-- Follow a schedule as long as its acts pass the test `ok`. -/
def Protocol.follow (M : Protocol σ ε S ι π ο)
    (ok : List (Act ι π ο κ) → Shared σ S ι π κ → Act ι π ο κ → Bool) :
    List (κ × Option ι) → List (Act ι π ο κ) → Shared σ S ι π κ →
      Option (List (Act ι π ο κ) × Shared σ S ι π κ)
  | [], as, s => some (as, s)
  | (c, i) :: es, as, s =>
    match M.next s c i with
    | some (a, t) => if ok as s a then M.follow ok es (as ++ [a]) t else none
    | none => none

theorem Protocol.step_of_next {c : κ} {i : Option ι} (h : M.next s c i = some (a, t)) :
    Step M s a t := by
  unfold Protocol.next at h
  split at h
  · rename_i hp
    cases h
    exact .call hp
  · rename_i hp
    split at h
    · rename_i hrun
      cases h
      exact .go hp hrun
    · cases h
  · cases h

/-- A schedule that can be followed gives a run. -/
theorem Run.of_follow {ok : List (Act ι π ο κ) → Shared σ S ι π κ → Act ι π ο κ → Bool}
    {es : List (κ × Option ι)} (h : Run M (fun as t a => ok as t a) s as t)
    (hfollow : M.follow ok es as t = some (bs, u)) : Run M (fun as t a => ok as t a) s bs u := by
  induction es generalizing as t with
  | nil =>
    cases hfollow
    exact h
  | cons e es ih =>
    unfold Protocol.follow at hfollow
    split at hfollow
    · rename_i hnext
      split at hfollow
      · rename_i hok
        exact ih (h.snoc hok (Protocol.step_of_next hnext)) hfollow
      · cases hfollow
    · cases hfollow

end Hashish.Lib
