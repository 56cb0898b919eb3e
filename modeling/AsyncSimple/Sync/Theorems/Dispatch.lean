import AsyncSimple.Sync.Dispatch
import AsyncSimple.Sync.Theorems.FutureState

open Transition

namespace AsyncSimple
namespace Dispatch

variable {ε α κ ξ γ : Type} {s s₁ s₂ : Pair ε α κ ξ γ}

-- An executor fits the other fields when it is not null after `ForceScheduled`, and when it has
-- returned the context that is stored.
def Pair.Fits (s : Pair ε α κ ξ γ) : Option ξ → Prop
  | none          => s.fs.force_scheduled = false
  | some executor => ∀ context, s.fs.context_ = some context → (executor, context) ∈ s.checkouts

-- `SetExecutor`, and `Wait` on a future that is not ready, only ever set an executor that fits.
def Fits (s : Pair ε α κ ξ γ) : Op ε α κ ξ γ → Prop
  | .setExecutor executor => s.Fits executor
  | .wait _ _             => s.fs.hasResult ∨ s.Fits none
  | _                     => True

instance [DecidableEq ξ] [DecidableEq γ] : (executor : Option ξ) → Decidable (s.Fits executor)
  | none   => inferInstanceAs (Decidable (_ = _))
  | some _ => inferInstanceAs (Decidable (∀ context, context ∈ s.fs.context_ → _))

instance [DecidableEq ξ] [DecidableEq γ] : (op : Op ε α κ ξ γ) → Decidable (Fits s op)
  | .setExecutor _     => inferInstanceAs (Decidable (s.Fits _))
  | .wait _ _          => inferInstanceAs (Decidable (_ ∨ s.Fits none))
  | .checkout _        => isTrue trivial
  | .forceScheduled    => isTrue trivial
  | .setContinuation _ => isTrue trivial
  | .setResult _ _     => isTrue trivial

-- Two pairs with the same executor, context and records.
structure Same (s₁ s₂ : Pair ε α κ ξ γ) : Prop where
  force_scheduled : s₂.fs.force_scheduled = s₁.fs.force_scheduled
  executor_       : s₂.fs.executor_ = s₁.fs.executor_
  context_        : s₂.fs.context_ = s₁.fs.context_
  checkouts       : s₂.checkouts = s₁.checkouts

namespace Dispatchable

theorem init : Dispatchable (Pair.new : Pair ε α κ ξ γ) where
  forced    := nofun
  belongs   := nofun
  scheduled := nofun

theorem same (d : Dispatchable s₁) (h : Same s₁ s₂) (hs : s₂.scheduled = s₁.scheduled) :
    Dispatchable s₂ where
  forced    := h.executor_ ▸ h.force_scheduled ▸ d.forced
  belongs   := h.executor_ ▸ h.context_ ▸ h.checkouts ▸ d.belongs
  scheduled := hs ▸ h.checkouts ▸ d.scheduled

theorem scheduleContinuation (d : Dispatchable s) : Dispatchable (s.scheduleContinuation t i) := by
  simp only [Pair.scheduleContinuation]
  split
  case isTrue => exact d
  case isFalse hi =>
    refine ⟨d.forced, d.belongs, fun {e c} h => ?_⟩
    obtain h | h := List.mem_append.mp h
    · exact d.scheduled h
    · simp only [List.mem_singleton, Prod.mk.injEq] at h
      obtain ⟨rfl, rfl⟩ := h
      refine ⟨?_, fun _ _ => d.belongs⟩
      -- The scheduling branch is taken with a null executor only if it is forced.
      cases he : s.fs.executor_
      case some => rfl
      case none =>
        cases hf : s.fs.force_scheduled
        case false => simp [FutureState.runsInline, he, hf] at hi
        case true  => simpa [he] using d.forced hf

theorem setResult (d : Dispatchable s) : Dispatchable (s.setResult value i) := by
  have hs : ∀ {fs done}, s.fs.setResult value = .ok (fs, done) → Dispatchable { s with fs } := by
    intro fs done h
    refine d.same ⟨?_, ?_, ?_, rfl⟩ rfl
    all_goals
      simp only [FutureState.setResult] at h
      split at h
      case isTrue  => contradiction
      case isFalse => split at h <;> cases h <;> rfl
  simp only [Pair.setResult]
  split
  case h_1 h => exact (hs h).scheduleContinuation
  case h_2 h => exact hs h
  case h_3   => exact d

theorem setContinuation (d : Dispatchable s) : Dispatchable (s.setContinuation func) := by
  have hs : ∀ {fs done}, s.fs.setContinuation func = .ok (fs, done) → Dispatchable { s with fs } := by
    intro fs done h
    refine d.same ⟨?_, ?_, ?_, rfl⟩ rfl
    all_goals
      simp only [FutureState.setContinuation] at h
      split at h
      case isTrue  => contradiction
      case isFalse => split at h <;> cases h <;> rfl
  simp only [Pair.setContinuation]
  split
  case h_1 h => exact (hs h).scheduleContinuation
  case h_2 h => exact hs h
  case h_3   => exact d

theorem checkout (d : Dispatchable s) : Dispatchable (s.checkout context) := by
  cases he : s.fs.executor_
  case none => simpa [Pair.checkout, FutureState.checkout, he] using d
  case some executor =>
    have hc : s.checkouts ⊆ (s.checkout context).checkouts := by
      cases context <;> simp [Pair.checkout, he]
    refine ⟨?_, fun {e c} h₁ h₂ => ?_, fun h => ?_⟩
    · simp [Pair.checkout, FutureState.checkout, he]
    · simp only [Pair.checkout, FutureState.checkout, he, Option.some.injEq] at h₁ h₂ ⊢
      simp [← h₁, h₂]
    · obtain ⟨h₁, h₂⟩ := d.scheduled h
      exact ⟨h₁, fun e c he hc' => hc (h₂ e c he hc')⟩

-- It is only the setting of an executor that can break the relation of the fields.
theorem setExecutor_iff (d : Dispatchable s) :
    Dispatchable { s with fs := s.fs.setExecutor executor } ↔ s.Fits executor := by
  constructor
  · intro h
    cases executor
    case none   => simpa [Pair.Fits, FutureState.setExecutor] using h.forced
    case some e => exact fun context hc => h.belongs rfl hc
  · intro h
    refine ⟨fun hf => ?_, fun {e c} he hc => ?_, d.scheduled⟩
    · cases executor
      case none   => exact absurd hf (by simpa [Pair.Fits, FutureState.setExecutor] using h)
      case some e => rfl
    · simp only [FutureState.setExecutor] at he
      subst he
      exact h c hc

theorem forceScheduled (d : Dispatchable s) :
    Dispatchable { s with fs := s.fs.setForceScheduled true } := by
  cases he : s.fs.executor_
  case none   => simpa [FutureState.setForceScheduled, he] using d
  case some e =>
    refine ⟨fun _ => ?_, fun h₁ h₂ => d.belongs ?_ ?_, d.scheduled⟩
    all_goals simp_all [FutureState.setForceScheduled]

theorem step (d : Dispatchable s₁) (hf : Fits s₁ op) (h : s₁.step op = some s₂) :
    Dispatchable s₂ := by
  cases op <;> simp only [Pair.step, Option.some.injEq] at h
  case setExecutor     => exact h ▸ d.setExecutor_iff.mpr hf
  case checkout        => exact h ▸ d.checkout
  case forceScheduled  => exact h ▸ d.forceScheduled
  case setContinuation => exact h ▸ d.setContinuation
  case setResult       => exact h ▸ d.setResult
  case wait =>
    simp only [Pair.wait] at h
    split at h
    case isTrue => exact Option.some.inj h ▸ d
    case isFalse hr =>
      split at h
      case isTrue => contradiction
      case isFalse =>
        have := d.setExecutor_iff.mpr (hf.resolve_left hr)
        exact Option.some.inj h ▸ this.setContinuation

end Dispatchable

variable [DecidableEq ξ] [DecidableEq γ]

-- In every history in which each executor that is set fits, the fields are always fit for dispatch.
theorem scheduleContinuation_dispatchable
    (h : ((system ε α κ ξ γ).restrict Fits).Reachable s) : Dispatchable s := by
  refine h.invariant .init fun d hs => ?_
  obtain ⟨hf, hs⟩ := System.restrict_step.mp hs
  exact d.step hf hs

-- An executor is set, its context is checked out, and the result comes last.
theorem scheduleContinuation_dispatchable_checkin :
    ∃ s : Pair Unit Unit Unit Bool Nat,
      s.scheduled = [(some true, some 7)] ∧ Dispatchable s := by
  obtain ⟨s, hr, hs⟩ := ((system Unit Unit Unit Bool Nat).restrict Fits).exists_reachable
    [.setExecutor (some true), .checkout (some 7), .forceScheduled, .setContinuation (),
      .setResult (.value ()) false]
    (p := fun s => s.scheduled = [(some true, some 7)]) (by decide)
  exact ⟨s, of_decide_eq_true hs, scheduleContinuation_dispatchable hr⟩

-- `Wait` resets the executor of a future that is forced to be scheduled, and then `SetResult`
-- calls a null executor.
theorem scheduleContinuation_null :
    ∃ s, (system Unit Unit Unit Bool Nat).Reachable s ∧ ¬ Dispatchable s := by
  obtain ⟨s, hr, hs⟩ := (system Unit Unit Unit Bool Nat).exists_reachable
    [.setExecutor (some true), .forceScheduled, .wait () false, .setResult (.value ()) false]
    (p := fun s => (none, none) ∈ s.scheduled) (by decide)
  exact ⟨s, hr, fun d => by simpa using (d.scheduled (of_decide_eq_true hs)).left⟩

end Dispatch
end AsyncSimple
