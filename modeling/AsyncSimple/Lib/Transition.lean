import Mathlib.Data.List.Basic
import Mathlib.Order.WellFounded

namespace Transition

-- A system consists of an initial state and a guarded step function: `step s a` is the state that
-- action `a` leads to, or `none` when `a` is not enabled in `s`. As `step` is a function, concrete
-- runs can be evaluated, while `Reachable` below ranges over all of them.
structure System (σ : Type*) (α : Type*) where
  init : σ
  step : σ → α → Option σ

namespace System

inductive Reachable (S : System σ α) : σ → Prop
  | init : Reachable S S.init
  | step : (Reachable S s₁) → (S.step s₁ a = some s₂) → Reachable S s₂

-- The states reached by exactly `n` steps.
inductive Steps (S : System σ α) : Nat → σ → Prop
  | init : Steps S 0 S.init
  | step : (Steps S n s₁) → (S.step s₁ a = some s₂) → Steps S (n + 1) s₂

-- No action is enabled any more.
def Quiescent (S : System σ α) (s : σ) : Prop :=
  ∀ a, S.step s a = none

-- There is no infinite run.
def Terminates (S : System σ α) : Prop :=
  ¬ ∃ f : Nat → σ, f 0 = S.init ∧ ∀ n, ∃ a, S.step (f n) a = some (f (n + 1))

def run (S : System σ α) : σ → List α → Option σ
  | s, []      => some s
  | s, a :: as => (S.step s a).bind (S.run · as)

-- The state that the actions lead to, if they can be taken.
def after (S : System σ α) (as : List α) : σ :=
  (S.run S.init as).getD S.init

-- The system that takes only those steps whose state and action satisfy the condition `C`.
def restrict (S : System σ α) (C : σ → α → Prop) [∀ s a, Decidable (C s a)] : System σ α where
  init := S.init
  step s a := if C s a then S.step s a else none

-- The same system, starting in another state.
def startingAt (S : System σ α) (s : σ) : System σ α :=
  { S with init := s }

-- The system with a record of its runs beside the state, which no step reads.
def record (S : System σ α) (h : η) (note : σ → α → σ → η → η) : System (σ × η) α where
  init := (S.init, h)
  step s a := (S.step s.1 a).map fun s' => (s', note s.1 a s' s.2)

-- A relation between the states of two systems, such that each step of the first is matched by at
-- most one step of the second.
structure Simulation (S : System σ α) (T : System τ β) (R : σ → τ → Prop) : Prop where
  init : R S.init T.init
  step : R s₁ t₁ → S.step s₁ a = some s₂ →
    (R s₂ t₁) ∨ (∃ b t₂, T.step t₁ b = some t₂ ∧ R s₂ t₂)

variable {S : System σ α} {T : System τ β} {s s₁ s₂ : σ} {a : α}

-- The proof rule for invariants: what holds initially and is preserved by each step holds in every
-- reachable state.
theorem Reachable.invariant {I : σ → Prop} (hi : I S.init)
    (hs : ∀ {s₁ a s₂}, I s₁ → S.step s₁ a = some s₂ → I s₂) (h : S.Reachable s) : I s := by
  induction h
  case init      => exact hi
  case step e ih => exact hs ih e

theorem restrict_step {C : σ → α → Prop} [∀ s a, Decidable (C s a)] :
    (S.restrict C).step s₁ a = some s₂ ↔ C s₁ a ∧ S.step s₁ a = some s₂ := by
  simp [restrict]

theorem Reachable.of_restrict {C : σ → α → Prop} [∀ s a, Decidable (C s a)]
    (h : (S.restrict C).Reachable s) : S.Reachable s := by
  induction h
  case init      => exact .init
  case step e ih => exact .step ih (restrict_step.mp e).right

theorem record_step {h₁ h₂ : η} :
    (S.record h note).step (s₁, h₁) a = some (s₂, h₂) ↔
    S.step s₁ a = some s₂ ∧ h₂ = note s₁ a s₂ h₁ := by
  simp only [record, Option.map_eq_some_iff, Prod.mk.injEq]
  constructor
  · rintro ⟨_, e, rfl, rfl⟩
    exact ⟨e, rfl⟩
  · rintro ⟨e, rfl⟩
    exact ⟨_, e, rfl, rfl⟩

theorem Reachable.of_record {note : σ → α → σ → η → η} {s : σ × η} (hr : (S.record h note).Reachable s) :
    S.Reachable s.1 := by
  induction hr
  case init      => exact .init
  case step e ih => exact ih.step (record_step.mp e).left

theorem Reachable.run (hr : S.Reachable s₁) {as : List α} (h : S.run s₁ as = some s₂) :
    S.Reachable s₂ := by
  induction as generalizing s₁ <;> simp [System.run, Option.bind_eq_some_iff] at h
  case nil => exact h ▸ hr
  case cons ih =>
    obtain ⟨s, e, h⟩ := h
    exact ih (hr.step e) h

theorem reachable_after (S : System σ α) (as : List α) : S.Reachable (S.after as) := by
  cases h : S.run S.init as <;> simp only [after, h]
  case none => exact .init
  case some => exact .run .init h

-- A concrete run, evaluated, shows that a state with a decidable property is reachable.
theorem exists_reachable {p : σ → Bool} (as : List α) (h : (S.run S.init as).any p) :
    ∃ s, S.Reachable s ∧ p s := by
  obtain ⟨s, hs, hp⟩ := Option.any_eq_true _ _ |>.mp h
  exact ⟨s, .run .init hs, hp⟩

theorem Steps.reachable (h : S.Steps n s) : S.Reachable s := by
  induction h
  case init      => exact .init
  case step e ih => exact .step ih e

-- When every step from a reachable state decreases a measure, then no run is longer than the
-- measure of the initial state. Thus, every run can be extended to a quiescent state.
theorem Steps.length_le {μ : σ → Nat}
    (hs : ∀ {s₁ a s₂}, S.Reachable s₁ → S.step s₁ a = some s₂ → μ s₂ < μ s₁) (h : S.Steps n s) :
    n + μ s ≤ μ S.init := by
  induction h
  case init => simp
  case step h e ih =>
    have := hs h.reachable e
    omega

theorem Reachable.exists_quiescent {μ : σ → Nat}
    (hs : ∀ {s₁ a s₂}, S.Reachable s₁ → S.step s₁ a = some s₂ → μ s₂ < μ s₁) (hr : S.Reachable s) :
    ∃ s', S.Reachable s' ∧ S.Quiescent s' := by
  induction hn : μ s using Nat.strongRecOn generalizing s
  case ind n ih =>
    by_cases hq : S.Quiescent s
    · exact ⟨s, hr, hq⟩
    · simp only [Quiescent, not_forall] at hq
      obtain ⟨a, ha⟩ := hq
      obtain ⟨s', e⟩ := Option.ne_none_iff_exists'.mp ha
      exact ih _ (hn ▸ hs hr e) (hr.step e) rfl

theorem terminates {r : β → β → Prop} (wf : WellFounded r) {μ : σ → β}
    (hs : ∀ {s₁ a s₂}, S.Reachable s₁ → S.step s₁ a = some s₂ → r (μ s₂) (μ s₁)) : S.Terminates := by
  rintro ⟨f, hi, hf⟩
  have hr (n : Nat) : S.Reachable (f n) := by
    induction n
    case zero      => exact hi ▸ .init
    case succ n ih =>
      obtain ⟨a, ha⟩ := hf n
      exact ih.step ha
  refine (wellFounded_iff_isEmpty_descending_chain.mp wf).false ⟨fun n => μ (f n), fun n => ?_⟩
  obtain ⟨a, ha⟩ := hf n
  exact hs (hr n) ha

theorem Simulation.reachable {R : σ → τ → Prop} (sim : Simulation S T R) (h : S.Reachable s) :
    ∃ t, T.Reachable t ∧ R s t := by
  induction h
  case init => exact ⟨_, .init, sim.init⟩
  case step e ih =>
    obtain ⟨t, ht, hr⟩ := ih
    cases sim.step hr e
    case inl h => exact ⟨_, ht, h⟩
    case inr h =>
      obtain ⟨b, t₂, ht₂, hr₂⟩ := h
      exact ⟨_, ht.step ht₂, hr₂⟩

end System
end Transition
