import AsyncSimple.Sync.Theorems.Handles

open Transition Counter

namespace AsyncSimple
namespace Handles

variable {ε α κ ξ γ : Type}

-- Move assignment never overwrites a handle that still refers to a shared state.
def Config.releases (s : Config ε α κ ξ γ) : Action ε α κ → Bool
  | .moveAssign this other =>
    this = other || match s.handles[this]? with
      | some (.promise (some _) _) => false
      | _                          => true
  | .moveAssignFuture this other =>
    this = other || match s.handles[this]? with
      | some (.future (some _)) => false
      | _                       => true
  | _ => true

def Releases (s : Config ε α κ ξ γ) (act : Action ε α κ) : Prop :=
  FewAttachments s act ∧ s.releases act

instance (s : Config ε α κ ξ γ) (act : Action ε α κ) : Decidable (Releases s act) :=
  inferInstanceAs (Decidable (_ ∧ _))

-- A shared state has been deleted exactly if nothing refers to it any more, and it is not touched
-- after that; in particular, it is not deleted again.
structure Released (s : Config ε α κ ξ γ) : Prop where
  deleted        : ∀ a < s.fresh, (s.states a).deleted ↔ s.count .holder a = 0
  useAfterDelete : s.fault ≠ some .useAfterDelete

-- No handle that has referred to the state has been overwritten.
structure Lossless (fs : SharedState ε α κ ξ γ) : Prop where
  promises : fs.lostPromises = 0
  futures  : fs.lostFutures = 0

namespace Lossless

variable {fs fs' : SharedState ε α κ ξ γ} {inline : Bool}

theorem schedule (l : Lossless fs) (inline : Bool) (x : FutureState ε α κ ξ γ × Bool) :
    Lossless (fs.schedule inline x).1 := by
  simp only [SharedState.schedule, SharedState.scheduleContinuation]
  (repeat' split) <;> exact ⟨l.promises, l.futures⟩

theorem detachOne (l : Lossless fs) (e : fs.detachOne = .ok fs') : Lossless fs' := by
  obtain ⟨_, _, rfl⟩ := detachOne_ok e
  exact ⟨l.promises, l.futures⟩

theorem detachReference (l : Lossless fs) (e : fs.detachReference = .ok fs') : Lossless fs' := by
  obtain ⟨_, _, _, rfl⟩ := detachReference_ok e
  exact ⟨l.promises, l.futures⟩

theorem setResult (l : Lossless fs) (e : fs.setResult value inline = .ok (fs', guards)) :
    Lossless fs' := by
  simp only [SharedState.setResult] at e
  cases hr : fs.toFutureState.setResult value <;> simp only [hr, Except.map] at e
  case ok x =>
    have := l.schedule inline x
    rwa [Except.ok.inj e] at this
  case error => contradiction

theorem setContinuation (l : Lossless fs) (e : fs.setContinuation func inline = .ok (fs', guards)) :
    Lossless fs' := by
  simp only [SharedState.setContinuation] at e
  cases hr : fs.toFutureState.setContinuation func <;> simp only [hr, Except.map] at e
  case ok x =>
    have := l.schedule inline x
    rwa [Except.ok.inj e] at this
  case error => contradiction

theorem detachPromise (l : Lossless fs) (e : fs.detachPromise inline = .ok (fs', guards)) :
    Lossless fs' := by
  have l' : Lossless { fs with promise_ref_ := fs.promise_ref_ - 1 } := ⟨l.promises, l.futures⟩
  simp only [SharedState.detachPromise] at e
  split at e
  case isFalse => contradiction
  case isTrue =>
    split at e
    case isFalse =>
      cases e
      exact l'
    case isTrue =>
      split at e <;> cases e
      case h_1 h => exact l'.setResult h
      case h_2   => exact l'

end Lossless

variable {s s₁ s₂ : Config ε α κ ξ γ} {act : Action ε α κ}

theorem lossless_setState {fs : SharedState ε α κ ξ γ} (l : ∀ a, Lossless (s.states a))
    (h : Lossless fs) (b : Nat) : Lossless ((s.setState a fs).states b) := by
  by_cases hb : b = a
  · subst hb
    simpa [Config.setState] using h
  · simpa [Config.setState, Function.update_of_ne hb] using l b

theorem lossless_call (l : ∀ a, Lossless (s.states a))
    (hf : ∀ {fs fs' guards}, Lossless fs → f fs = .ok (fs', guards) → Lossless fs')
    (b : Nat) (hk : ∀ s, (k s).states = s.states := by exact fun _ => rfl) :
    Lossless ((s.call a f k).states b) := by
  simp only [Config.call]
  split
  case isTrue => exact l b
  case isFalse =>
    split
    case h_1 h =>
      rw [hk]
      exact lossless_setState l (hf (l a) h) b
    case h_2 => exact l b

theorem lossless_step (l : ∀ a, Lossless (s₁.states a)) (hr : s₁.releases act)
    (h : step s₁ act = some s₂) (b : Nat) : Lossless (s₂.states b) := by
  -- The member functions that the operations call.
  have attach {fs fs' : SharedState ε α κ ξ γ} {guards} (l : Lossless fs)
      (e : (.ok (fs.attachOne, 0) : Except Fault _) = .ok (fs', guards)) : Lossless fs' := by
    cases e
    exact ⟨l.promises, l.futures⟩
  have attachPromise {fs fs' : SharedState ε α κ ξ γ} {guards} (l : Lossless fs)
      (e : (.ok (fs.attachPromise, 0) : Except Fault _) = .ok (fs', guards)) : Lossless fs' := by
    cases e
    exact ⟨l.promises, l.futures⟩
  have attachReference {fs fs' : SharedState ε α κ ξ γ} {guards} (l : Lossless fs)
      (e : (.ok (fs.attachReference, 0) : Except Fault _) = .ok (fs', guards)) : Lossless fs' := by
    cases e
    exact ⟨l.promises, l.futures⟩
  have detach {fs fs' : SharedState ε α κ ξ γ} {guards} (l : Lossless fs)
      (e : fs.detachOne.map (·, 0) = .ok (fs', guards)) : Lossless fs' := by
    cases hd : fs.detachOne <;> rw [hd] at e <;> cases e
    exact l.detachOne hd
  have detachReference {fs fs' : SharedState ε α κ ξ γ} {guards} (l : Lossless fs)
      (e : fs.detachReference.map (·, 0) = .ok (fs', guards)) : Lossless fs' := by
    cases hd : fs.detachReference <;> rw [hd] at e <;> cases e
    exact l.detachReference hd
  have detachPromise {fs fs' : SharedState ε α κ ξ γ} {inline guards} (l : Lossless fs)
      (e : fs.detachPromise inline = .ok (fs', guards)) : Lossless fs' :=
    l.detachPromise e
  cases act <;> simp only [step, Config.copyPromise, Config.detachPromise, Config.setResult,
    Config.setContinuation] at h
  case newPromise =>
    cases h
    exact lossless_setState l ⟨rfl, rfl⟩ b
  case copyPromise =>
    split at h <;> cases h
    case h_1 => exact lossless_call l attachPromise b
    case h_2 => exact l b
  case copyAssign =>
    split at h
    case isTrue => exact Option.some.inj h ▸ l b
    case isFalse =>
      split at h <;> cases h
      case h_1 => exact lossless_call l detachPromise b
      case h_2 => exact l b
  case destroyPromise =>
    split at h <;> cases h
    case h_1 => exact lossless_call l detachPromise b
    case h_2 => exact l b
  case detachOne =>
    split at h <;> cases h
    exact lossless_call l detach b
  case copy =>
    split at h
    case h_1 =>
      split at h <;> cases h
      case h_1 => exact lossless_call l attachPromise b
      case h_2 => exact l b
    case h_2 => contradiction
  case setResult =>
    split at h <;> cases h
    case h_1 =>
      refine lossless_call l (fun {fs fs' guards} l e => ?_) b
      split at e <;> cases e
      case h_1 hr =>
        have := l.setResult hr
        exact ⟨this.promises, this.futures⟩
      case h_2 => exact l
    case h_2 => exact l b
  case setContinuation =>
    split at h <;> cases h
    refine lossless_call l (fun {fs fs' guards} l e => ?_) b
    split at e <;> cases e
    case h_1 hr => exact l.setContinuation hr
    case h_2    => exact l
  case getFuture =>
    obtain ⟨_, _, rfl⟩ | ⟨_, _, _, _, rfl⟩ := Config.getFuture_cases h
    · exact lossless_call l attach b
    · exact l b
  case destroyFuture =>
    split at h <;> cases h
    case h_1 => exact lossless_call l detach b
    case h_2 => exact l b
  case copyReference =>
    split at h <;> cases h
    case h_1 => exact lossless_call l attachReference b
    case h_2 => exact l b
  case destroyReference =>
    split at h <;> cases h
    case h_1 => exact lossless_call l detachReference b
    case h_2 => exact l b
  case moveAssign this other =>
    simp only [Config.moveAssign] at h
    split at h
    case h_2 => contradiction
    case h_1 old hf _ _ hx _ =>
      split at h <;> cases h
      case isTrue => exact l b
      case isFalse hne =>
        cases old
        case none   => exact l b
        case some a => simp [Config.releases, hne, hx] at hr
  case moveAssignFuture this other =>
    simp only [Config.moveAssignFuture] at h
    split at h
    case h_2 => contradiction
    case h_1 old _ hx _ =>
      split at h <;> cases h
      case isTrue => exact l b
      case isFalse hne =>
        cases old
        case none   => exact l b
        case some a => simp [Config.releases, hne, hx] at hr
  all_goals
    split at h <;> cases h
    exact l b

-- A state to which something refers is left by its last holder only with its deletion.
theorem StateStep.positive {fs fs' : SharedState ε α κ ξ γ} (e : StateStep fs h p r fs' h' p' r')
    (c : Counted fs h p r) (hb : h < 256) (hp : 0 < h) (l : Lossless fs) (l' : Lossless fs')
    (hd : fs'.deleted = false) : 0 < h' := by
  have hdetach {fs fs' : SharedState ε α κ ξ γ} {h p r} (c : Counted fs (h + 1) p r) (l : Lossless fs)
      (hb : h + 1 < 256) (e : fs.detachOne = .ok fs') (hd : fs'.deleted = false) : 0 < h := by
    have hl := l.promises
    have hl' := l.futures
    have h₁ : fs.attached_ = 1 ↔ fs.lostPromises + fs.lostFutures + h = 0 :=
      c.attached.eq_one_iff (show fs.lostPromises + fs.lostFutures + h + 1 < 2 ^ 8 by omega)
    simp only [SharedState.detachOne] at e
    split at e <;> cases e
    simp only [decide_eq_false_iff_not, h₁] at hd
    omega
  cases e
  case detachOne e => exact hdetach c l hb e hd
  case detachReference e =>
    simp only [SharedState.detachReference] at e
    split at e
    case isFalse => contradiction
    case isTrue =>
      have c' : Counted { fs with continuation_ref_ := fs.continuation_ref_ - 1 } (h' + 1) p r' :=
        ⟨c.attached, c.promise_ref, c.continuation_ref.dec⟩
      exact hdetach c' ⟨l.promises, l.futures⟩ hb e hd
  case losePromise => exact absurd l'.promises (Nat.succ_ne_zero _)
  case loseFuture  => exact absurd l'.futures (Nat.succ_ne_zero _)
  all_goals omega

-- The invariant of the histories in which move assignment does not overwrite anything.
structure ReleaseInv (s : Config ε α κ ξ γ) : Prop where
  inv      : Inv s
  lossless : ∀ a, Lossless (s.states a)
  positive : ∀ a < s.fresh, (s.states a).deleted = false → 0 < s.count .holder a

namespace ReleaseInv

theorem init : ReleaseInv (system : System (Config ε α κ ξ γ) (Action ε α κ)).init where
  inv        := .init
  lossless _ := ⟨rfl, rfl⟩
  positive   := nofun

theorem step (r : ReleaseInv s₁) (hr : Releases s₁ act) (h : system.step s₁ act = some s₂) :
    ReleaseInv s₂ := by
  have i₂ := r.inv.step hr.left h
  simp only [system] at h
  split at h
  case isFalse => contradiction
  case isTrue =>
    have l₂ := lossless_step r.lossless hr.right h
    refine ⟨i₂, l₂, ?_⟩
    cases step_effect r.inv hr.left h
    case skip states fresh _ count =>
      intro a ha
      rw [states, count]
      exact r.positive a (fresh ▸ ha)
    case new eq =>
      subst eq
      intro a ha hd
      rw [newPromise_count r.inv]
      split
      case isTrue  => simp [Handle.weight, Handle.refersTo]
      case isFalse hf =>
        have hs : s₁.newPromise.states a = s₁.states a := Function.update_of_ne hf ..
        exact r.positive a (Nat.lt_of_le_of_ne (Nat.le_of_lt_succ ha) hf) (hs ▸ hd)
    case call a fs states fresh _ live count step _ =>
      intro b hb hd
      by_cases hne : b = a
      · subst hne
        obtain ⟨c, hf⟩ := hr.left.counted r.inv live
        have hs : s₂.states b = fs := by rw [states, Function.update_self]
        exact step.positive c (by omega) live (r.lossless b) (hs ▸ l₂ b) (hs ▸ hd)
      · rw [states, Function.update_of_ne hne] at hd
        rw [count _ b hne]
        exact r.positive b (fresh ▸ hb) hd

theorem reachable (h : (system.restrict Releases).Reachable s) : ReleaseInv s := by
  refine h.invariant (S := system.restrict Releases) init fun r hs => ?_
  obtain ⟨hr, hs⟩ := System.restrict_step.mp hs
  exact r.step hr hs

end ReleaseInv

-- As long as move assignment overwrites no handle that refers to a state, every state is deleted
-- once the last handle is gone, and no earlier.
theorem future_state_released (h : (system.restrict Releases).Reachable s) : Released s := by
  have r := ReleaseInv.reachable h
  refine ⟨fun a ha => ⟨(r.inv.states a).deleted, fun hc => ?_⟩, r.inv.fault.right⟩
  by_contra hd
  have := r.positive a ha (eq_false_of_ne_true hd)
  omega

theorem future_state_released_broken :
    ∃ s : Config Unit Nat String Unit Unit, s.fresh = 1 ∧ s.count .holder 0 = 0 ∧ Released s := by
  obtain ⟨s, hr, hs⟩ := (system.restrict Releases).exists_reachable brokenRun
    (p := fun s : Config Unit Nat String Unit Unit => s.fresh = 1 ∧ s.count .holder 0 = 0) (by decide)
  simp only [Bool.decide_and, Bool.and_eq_true, decide_eq_true_eq] at hs
  exact ⟨s, hs.left, hs.right, future_state_released hr⟩

-- What `Wait` does to the handles when it blocks, where its promise gets the number `n`: it moves the
-- promise into the continuation, and in the end it overwrites the future.

def waitBlocks (this n : Nat) : List (Action Unit Nat String) :=
  [.newPromise, .getFuture n, .movePromise n, .setContinuation this "wait" true]

def waitReturns (this n : Nat) : List (Action Unit Nat String) :=
  [.moveAssignFuture this (n + 1), .destroyFuture (n + 1), .destroyPromise n true]

-- While the future 1 is waited for, its promise is fulfilled, and the continuation is run and then
-- destroyed. After the wait, everything else is destroyed, too.
def waitRun : List (Action Unit Nat String) :=
  [.newPromise, .getFuture 0] ++ waitBlocks 1 2 ++
  [.setResult 0 (.value 7) true, .setResult 4 (.value 7) true, .destroyPromise 4 true, .detachOne 4,
    .destroyReference 5] ++ waitReturns 1 2 ++
  [.destroyFuture 1, .destroyPromise 0 true, .detachOne 0]

theorem future_state_leaked :
    ∃ s : Config Unit Nat String Unit Unit, system.Reachable s ∧
      (∀ h ∈ s.handles, h = .destroyed) ∧ ¬ Released s := by
  obtain ⟨s, hr, hs⟩ := system.exists_reachable waitRun
    (p := fun s : Config Unit Nat String Unit Unit => (∀ h ∈ s.handles, h = .destroyed) ∧
      0 < s.fresh ∧ s.count .holder 0 = 0 ∧ (s.states 0).deleted = false) (by decide)
  simp only [Bool.decide_and, Bool.and_eq_true, decide_eq_true_eq] at hs
  refine ⟨s, hr, hs.1, fun h => ?_⟩
  have := (h.deleted 0 hs.2.1).mpr hs.2.2.1
  simp [hs.2.2.2] at this

end Handles
end AsyncSimple
