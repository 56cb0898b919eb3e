import AsyncSimple.Sync.Delivery
import AsyncSimple.Sync.Theorems.FutureState

open Transition

namespace AsyncSimple
namespace Delivery

variable {ε α κ ξ γ : Type}

-- The state is done, the continuation has neither been run nor submitted, and no later operation
-- will do so.
def Lost (s : Config ε (Option α) κ ξ γ) : Prop :=
  s.fs.state_ = .kDone ∧ s.handoffs = [] ∧
  ∀ s', ((system ε α κ ξ γ).startingAt s).Reachable s' → s'.handoffs = []

-- Whether the move construction of T throws in the assignment to `try_value_`.
def Call.tears (c : Call ε α κ) (fs : FutureState ε (Option α) κ ξ γ) : Bool :=
  match c with
  | .setResult value move => !fs.hasResult && value.hasValue && move.isSome
  | .setContinuation _ _  => false

-- Whether the call would complete the pair.
def Call.completes (c : Call ε α κ) (fs : FutureState ε (Option α) κ ξ γ) : Bool :=
  match c with
  | .setResult _ _          => fs.state_ = .kOnlyContinuation && !c.tears fs
  | .setContinuation _ move => fs.state_ = .kOnlyResult && move.isNone

def Call.triggersByContinuation : Call ε α κ → Bool
  | .setResult _ _       => false
  | .setContinuation _ _ => true

-- Whether an executor throws when `ScheduleContinuation` asks it for the current thread, or when it
-- submits the continuation to it.
def Virtuals.throws (v : Virtuals ε) (fs : FutureState ε α κ ξ γ) (triggerByContinuation : Bool) : Bool :=
  if fs.force_scheduled then
    !(v.submit fs.context_).isOk
  else if triggerByContinuation then
    false
  else
    match v.inExecutor with
    | .ok inExecutor => !inExecutor && !(v.submit fs.context_).isOk
    | .error _       => true

def Call.escapes (c : Call ε α κ) (fs : FutureState ε (Option α) κ ξ γ) (answers : ξ → Virtuals ε) : Bool :=
  c.completes fs && fs.executor_.any fun executor => (answers executor).throws fs c.triggersByContinuation

variable {fs : FutureState ε α κ ξ γ} {answers : ξ → Virtuals ε} {body : Option (Exception ε)}
  {o : Outcome ε α κ ξ γ} {trigger : Bool}

-- What is left of a call: it throws, or it runs or submits the continuation.
structure Handled (o : Outcome ε α κ ξ γ) (fs : FutureState ε α κ ξ γ) (throws : Bool) : Prop where
  fs     : o.fs = fs
  thrown : throws → o.handoff = none ∧ o.thrown.isSome
  handed : throws = false → o.handoff.isSome ∧ (o.started = false → o.thrown = none)

theorem submit_handled (h : submit fs answers body = some o) :
    ∃ executor, fs.executor_ = some executor ∧ Handled o fs !((answers executor).submit fs.context_).isOk := by
  simp only [submit] at h
  split at h <;> try contradiction
  case h_1 executor _ he _ =>
    refine ⟨executor, he, ?_⟩
    split at h <;> cases h
    case h_1 hs => exact ⟨rfl, by simp [hs, Except.isOk, Except.toBool], fun _ => ⟨rfl, fun _ => rfl⟩⟩
    case h_2 hs =>
      exact ⟨rfl, by simp [hs, Except.isOk, Except.toBool], fun _ => ⟨rfl, by simp [Outcome.started]⟩⟩
    case h_3 hs => exact ⟨rfl, fun _ => ⟨rfl, rfl⟩, by simp [hs, Except.isOk, Except.toBool]⟩

theorem schedule_handled (h : scheduleContinuation fs trigger answers body = some o) :
    Handled o fs (fs.executor_.any fun executor => (answers executor).throws fs trigger) := by
  have inline : Handled (⟨fs, some .inline, body⟩ : Outcome ε α κ ξ γ) fs false :=
    ⟨rfl, by simp, fun _ => ⟨rfl, by simp [Outcome.started]⟩⟩
  cases he : fs.executor_ <;> simp only [scheduleContinuation, he] at h
  case none =>
    split at h
    case isTrue  => exact Option.some.inj h ▸ inline
    case isFalse =>
      obtain ⟨executor, he', _⟩ := submit_handled h
      simp [he] at he'
  case some executor =>
    -- Unless the branch condition holds, the executor gets the continuation.
    have submitted (h : submit fs answers body = some o) :
        Handled o fs !((answers executor).submit fs.context_).isOk := by
      obtain ⟨executor', he', h⟩ := submit_handled h
      cases he.symm.trans he'
      exact h
    cases hf : fs.force_scheduled <;> cases trigger <;>
      simp only [FutureState.asksExecutor, FutureState.runsInline, he, hf, Bool.not_false, Bool.not_true,
        Bool.true_and, Bool.and_false, Bool.and_true, Option.isSome_some, Option.isNone_some,
        Bool.false_or, Bool.or_true, Bool.or_false, Bool.false_eq_true, if_true, if_false] at h <;>
      simp only [Option.any_some, Virtuals.throws, hf, if_true, Bool.false_eq_true, if_false]
    case false.false =>
      cases hv : (answers executor).inExecutor <;> simp only [hv] at h ⊢
      case error x => exact Option.some.inj h ▸ ⟨rfl, fun _ => ⟨rfl, rfl⟩, by simp⟩
      case ok b =>
        cases b <;> simp only [Bool.not_true, Bool.not_false, Bool.false_and, Bool.true_and, Bool.false_eq_true,
          if_true, if_false] at h ⊢
        case false => exact submitted h
        case true  => exact Option.some.inj h ▸ inline
    case false.true => exact Option.some.inj h ▸ inline
    case true.false => exact submitted h
    case true.true  => exact submitted h

variable {s s' : Config ε (Option α) κ ξ γ} {fs : FutureState ε (Option α) κ ξ γ} {o : Outcome ε (Option α) κ ξ γ}
  {c : Call ε α κ}

theorem Call.tears_of_completes (h : c.completes fs = true) : c.tears fs = false := by
  cases c
  case setResult       => exact Bool.not_eq_true' _ |>.mp (Bool.and_eq_true_iff.mp h).right
  case setContinuation => rfl

-- A call throws before it changes anything, or in the assignment of the result, or it leaves the state
-- waiting for the other half of the pair, or it completes it.
inductive Ran (c : Call ε α κ) (fs : FutureState ε (Option α) κ ξ γ) (answers : ξ → Virtuals ε)
    (o : Outcome ε (Option α) κ ξ γ) : Prop
  | rejected  : (c.tears fs = false) → (c.completes fs = false) → (o = ⟨fs, none, some x⟩) → Ran c fs answers o
  | torn      : (c.tears fs = true) → (fs.torn = false) → (fs.state_ ≠ .kDone) →
    (o = ⟨{ fs with try_value_ := .value none }, none, some x⟩) → Ran c fs answers o
  | half      : (c.tears fs = false) → (c.completes fs = false) → (o.fs.state_ ≠ .kDone) → (o.thrown = none) →
    Ran c fs answers o
  | completed : (c.tears fs = false) → (c.completes fs = true) → (fs.state_ ≠ .kDone) → (o.fs.state_ = .kDone) →
    Handled o o.fs (c.escapes fs answers) → Ran c fs answers o

theorem Ran.of_schedule {fs' : FutureState ε (Option α) κ ξ γ} (ht : c.tears fs = false) (hc : c.completes fs = true)
    (hd : fs.state_ ≠ .kDone) (hd' : fs'.state_ = .kDone) (he : fs'.executor_ = fs.executor_)
    (hf : fs'.force_scheduled = fs.force_scheduled) (hx : fs'.context_ = fs.context_)
    (h : scheduleContinuation fs' c.triggersByContinuation answers body = some o) : Ran c fs answers o := by
  have hs := schedule_handled h
  have hv (v : Virtuals ε) : v.throws fs' c.triggersByContinuation = v.throws fs c.triggersByContinuation := by
    simp only [Virtuals.throws, hf, hx]
  refine .completed ht hc hd (hs.fs ▸ hd') ?_
  simp only [Call.escapes, hc, Bool.true_and, ← he, ← hv, hs.fs]
  exact hs

theorem Ran.of_setResult {value : Try ε α} {move : Option (Exception ε)}
    (h : setResult fs value move answers body = some o) : Ran (.setResult value move) fs answers o := by
  simp only [setResult] at h
  cases hr : fs.hasResult
  case true =>
    simp only [FutureState.setResultMoving, hr, if_true, Option.bind_some] at h
    refine .rejected (by simp [Call.tears, hr]) ?_ (Option.some.inj h).symm
    cases hs : fs.state_ <;> simp_all [Call.completes, FutureState.hasResult]
  case false =>
    have hd : fs.state_ ≠ .kDone := fun hs => by simp [FutureState.hasResult, hs] at hr
    cases ha : fs.assignResult value move
    case none => simp [FutureState.setResultMoving, hr, ha] at h
    case some r =>
      obtain ⟨hn, ⟨x, rfl, hv, rfl⟩ | ⟨hm, rfl⟩⟩ := FutureState.assignResult_cases ha
      case inl =>
        simp only [FutureState.setResultMoving, hr, ha, Bool.false_eq_true, if_false, Option.map_some,
          Option.bind_some] at h
        exact .torn (by simp [Call.tears, hr, hv]) hn hd (Option.some.inj h).symm
      case inr =>
        have ht : (Call.setResult value move : Call ε α κ).tears fs = false := by
          obtain rfl | hv := hm <;> simp [Call.tears, *]
        rw [FutureState.setResultMoving_withResult hr ha] at h
        cases hs : fs.state_ <;> simp [FutureState.hasResult, FutureState.hasContinuation, hs] at hr h
        case kStart =>
          refine .half ht (by simp [Call.completes, hs]) ?_ ?_ <;>
            simp [← h, FutureState.withResult, FutureState.hasContinuation, hs]
        case kOnlyContinuation =>
          refine .of_schedule ht (by simp [Call.completes, hs, ht]) hd ?_ ?_ ?_ ?_ h <;>
            simp [FutureState.withResult, FutureState.hasContinuation, hs]

theorem Ran.of_setContinuation {func : κ} {move : Option (Exception ε)}
    (h : setContinuation fs func move answers body = some o) :
    Ran (.setContinuation func move : Call ε α κ) fs answers o := by
  simp only [setContinuation] at h
  cases hr : fs.hasContinuation
  case true =>
    simp only [FutureState.setContinuation, hr, if_true] at h
    refine .rejected rfl ?_ (Option.some.inj h).symm
    cases hs : fs.state_ <;> simp_all [Call.completes, FutureState.hasContinuation]
  case false =>
    have hd : fs.state_ ≠ .kDone := fun hs => by simp [FutureState.hasContinuation, hs] at hr
    rw [FutureState.setContinuation_withContinuation hr] at h
    cases move
    case some x => exact .rejected rfl (by simp [Call.completes]) (Option.some.inj h).symm
    case none   =>
      cases hs : fs.state_ <;> simp [FutureState.hasResult, FutureState.hasContinuation, hs] at hr h
      case kStart =>
        refine .half rfl (by simp [Call.completes, hs]) ?_ ?_ <;>
          simp [← h, FutureState.withContinuation, FutureState.hasResult, hs]
      case kOnlyResult =>
        refine .of_schedule rfl (by simp [Call.completes, hs]) hd ?_ ?_ ?_ ?_ h <;>
          simp [FutureState.withContinuation, FutureState.hasResult, hs]

theorem Ran.of_run (h : c.run fs answers body = some o) : Ran c fs answers o := by
  cases c
  case setResult       => exact .of_setResult h
  case setContinuation => exact .of_setContinuation h

theorem Lost.of_done (hd : s.fs.state_ = .kDone) (hh : s.handoffs = []) : Lost s := by
  refine ⟨hd, hh, fun s' h => ?_⟩
  suffices hi : s'.fs.state_ = .kDone ∧ s'.handoffs = [] from hi.right
  refine h.invariant (I := fun s => s.fs.state_ = .kDone ∧ s.handoffs = []) ⟨hd, hh⟩ fun {s₁ op s₂} i e => ?_
  cases op <;> simp only [System.startingAt, system, step] at e
  case setExecutor => exact Option.some.inj e ▸ i
  case checkout context =>
    refine Option.some.inj e ▸ ⟨?_, i.right⟩
    simp only [FutureState.checkout]
    split <;> exact i.left
  case forceScheduled =>
    refine Option.some.inj e ▸ ⟨?_, i.right⟩
    simp only [FutureState.setForceScheduled]
    split <;> exact i.left
  case call c answers body =>
    obtain ⟨o, ho, rfl⟩ := Option.map_eq_some_iff.mp e
    have rejected {x} (h : o = ⟨s₁.fs, none, some x⟩) : o.fs.state_ = .kDone ∧ s₁.handoffs ++ o.handoff.toList = [] := by
      subst h
      exact ⟨i.left, by simp [i.right]⟩
    cases Ran.of_run ho
    case rejected ho       => exact rejected ho
    case torn hd _         => exact absurd i.left hd
    case completed hd _ _  => exact absurd i.left hd
    case half hd _         =>
      cases c <;> simp [Call.run, setResult, setContinuation, FutureState.setResultMoving, FutureState.setContinuation,
        FutureState.hasResult, FutureState.hasContinuation, i.left] at ho <;> exact rejected ho.symm

-- The state after a call.
def Config.after (s : Config ε α κ ξ γ) (o : Outcome ε α κ ξ γ) : Config ε α κ ξ γ :=
  ⟨o.fs, s.handoffs ++ o.handoff.toList⟩

-- When an executor throws, then the continuation is lost.
theorem lost_of_escapes (h : c.run s.fs answers body = some o) (hh : s.handoffs = [])
    (he : c.escapes s.fs answers = true) : Lost (s.after o) := by
  have hc : c.completes s.fs = true := (Bool.and_eq_true_iff.mp he).left
  cases Ran.of_run h
  case rejected hc' _ => simp [hc'] at hc
  case half hc' _ _   => simp [hc'] at hc
  case torn ht _ _ _  => simp [Call.tears_of_completes hc] at ht
  case completed _ _ _ hd' ho =>
    refine .of_done hd' ?_
    simp [Config.after, hh, (ho.thrown he).left]

end Delivery
end AsyncSimple
