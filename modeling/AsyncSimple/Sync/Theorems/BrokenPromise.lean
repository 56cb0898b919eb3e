import AsyncSimple.Sync.Theorems.Handles

open Transition

namespace AsyncSimple
namespace Handles

variable {ε α κ ξ γ : Type} {s s₁ s₂ : Config ε α κ ξ γ} {act : Action ε α κ}

-- No promise is overwritten by move assignment while its state waits for a result.
def Config.keepsPromises (s : Config ε α κ ξ γ) : Action ε α κ → Bool
  | .moveAssign this other =>
    this = other || match s.handles[this]? with
      | some (.promise (some a) _) => (s.states a).hasResult
      | _                          => true
  | _ => true

def KeepsPromises (s : Config ε α κ ξ γ) (act : Action ε α κ) : Prop :=
  FewAttachments s act ∧ s.keepsPromises act

instance (s : Config ε α κ ξ γ) (act : Action ε α κ) : Decidable (KeepsPromises s act) :=
  inferInstanceAs (Decidable (_ ∧ _))

theorem KeepsPromises.hasResult (h : KeepsPromises s act) (ho : Overwrites s act a) :
    (s.states a).hasResult := by
  obtain ⟨this, other, has_future_, rfl, hne, hx⟩ := ho
  simpa [Config.keepsPromises, hne, hx] using h.right

theorem told_step (i : Inv s₁) (t : ∀ a < s₁.fresh, Told (s₁.states a) (s₁.count .promise a))
    (hk : KeepsPromises s₁ act) (h : system.step s₁ act = some s₂) :
    ∀ a < s₂.fresh, Told (s₂.states a) (s₂.count .promise a) := by
  simp only [system] at h
  split at h
  case isFalse => contradiction
  case isTrue =>
    cases step_effect i hk.left h
    case skip states fresh _ count =>
      intro a ha
      rw [states, count]
      exact t a (fresh ▸ ha)
    case new eq =>
      subst eq
      intro a ha
      rw [newPromise_count i]
      split
      case isTrue hf =>
        subst hf
        have hs : s₁.newPromise.states s₁.fresh = SharedState.new.attachPromise := Function.update_self ..
        rw [hs]
        refine ⟨?_, fun _ => ⟨rfl, rfl, by simp [Handle.weight, Handle.refersTo]⟩⟩
        simp [SharedState.attachPromise, SharedState.attachOne, SharedState.new, FutureState.new,
          FutureState.hasResult]
      case isFalse hf =>
        have hs : s₁.newPromise.states a = s₁.states a := Function.update_of_ne hf ..
        rw [hs]
        exact t a (Nat.lt_of_le_of_ne (Nat.le_of_lt_succ ha) hf)
    case call a fs states fresh _ live count step lost =>
      obtain ⟨c, hb⟩ := hk.left.counted i live
      intro b hb'
      by_cases hne : b = a
      · subst hne
        have hle := s₁.count_promise_le (a := b)
        rw [states, Function.update_self]
        exact step.told c (t b (i.live live).right) (by omega) (lost.symm.imp_left hk.hasResult)
      · rw [states, Function.update_of_ne hne, count _ b hne]
        exact t b (fresh ▸ hb')

-- A state without promises has the result that was set, or else is told that the promise is broken.
def Notified (s : Config ε α κ ξ γ) : Prop :=
  ∀ a < s.fresh, s.count .promise a = 0 → (s.states a).hasResult ∧
    (s.states a).try_value_ = (s.states a).given.getD SharedState.brokenPromise

theorem broken_promise_reported (h : (system.restrict KeepsPromises).Reachable s) : Notified s := by
  obtain ⟨_, t⟩ : Inv s ∧ ∀ a < s.fresh, Told (s.states a) (s.count .promise a) := by
    induction h
    case init => exact ⟨.init, nofun⟩
    case step hs ih =>
      obtain ⟨i, t⟩ := ih
      obtain ⟨hk, hs⟩ := System.restrict_step.mp hs
      exact ⟨i.step hk.left hs, told_step i t hk hs⟩
  intro a ha hp
  cases hr : (s.states a).hasResult
  case true => exact ⟨rfl, (t a ha).value hr⟩
  case false =>
    have := (t a ha).pending hr
    omega

theorem broken_promise_reported_broken :
    ∃ s : Config Unit Nat String Unit Unit, (s.states 0).hasResult ∧ s.count .promise 0 = 0 ∧
      Notified s := by
  obtain ⟨s, hr, hs⟩ := (system.restrict KeepsPromises).exists_reachable brokenRun
    (p := fun s : Config Unit Nat String Unit Unit => (s.states 0).hasResult ∧ s.count .promise 0 = 0)
    (by decide)
  simp only [Bool.decide_and, Bool.and_eq_true, decide_eq_true_eq] at hs
  exact ⟨s, hs.left, hs.right, broken_promise_reported hr⟩

-- The only promise of a future is overwritten, which leaves the future waiting.
theorem broken_promise_lost :
    ∃ s : Config Unit Nat String Unit Unit, system.Reachable s ∧ ¬ Notified s := by
  obtain ⟨s, hr, hs⟩ := system.exists_reachable [.newPromise, .getFuture 0, .newPromise, .moveAssign 0 2]
    (p := fun s : Config Unit Nat String Unit Unit =>
      0 < s.fresh ∧ s.count .promise 0 = 0 ∧ (s.states 0).hasResult = false) (by decide)
  simp only [Bool.decide_and, Bool.and_eq_true, decide_eq_true_eq] at hs
  refine ⟨s, hr, fun h => ?_⟩
  have := (h 0 hs.1 hs.2.1).left
  simp [hs.2.2] at this

end Handles
end AsyncSimple
