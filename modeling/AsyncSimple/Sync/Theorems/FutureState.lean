import AsyncSimple.Sync.FutureState

namespace AsyncSimple
namespace FutureState

variable {ε α κ ξ γ : Type}

-- What `SetResult` and `SetContinuation` make of a state.

def withResult (fs : FutureState ε α κ ξ γ) (t : Try ε α) : FutureState ε α κ ξ γ :=
  { fs with try_value_ := t, state_ := if fs.hasContinuation then .kDone else .kOnlyResult }

def withContinuation (fs : FutureState ε α κ ξ γ) (c : κ) : FutureState ε α κ ξ γ :=
  { fs with continuation_ := some c, state_ := if fs.hasResult then .kDone else .kOnlyContinuation }

variable {fs : FutureState ε α κ ξ γ} {t : Try ε α} {c : κ}

@[simp]
theorem hasResult_withResult : (fs.withResult t).hasResult = true := by
  cases h : fs.hasContinuation <;> simp [withResult, hasResult, h]

@[simp]
theorem hasContinuation_withResult : (fs.withResult t).hasContinuation = fs.hasContinuation := by
  cases h : fs.hasContinuation <;> simp [withResult, h] <;> simp [hasContinuation]

@[simp]
theorem hasResult_withContinuation : (fs.withContinuation c).hasResult = fs.hasResult := by
  cases h : fs.hasResult <;> simp [withContinuation, h] <;> simp [hasResult]

@[simp]
theorem hasContinuation_withContinuation : (fs.withContinuation c).hasContinuation = true := by
  cases h : fs.hasResult <;> simp [withContinuation, hasContinuation, h]

theorem setResult_withResult (h : fs.hasResult = false) :
    fs.setResult t = .ok (fs.withResult t, fs.hasContinuation) :=
  setResult_eq t h

theorem setContinuation_withContinuation (h : fs.hasContinuation = false) :
    fs.setContinuation c = .ok (fs.withContinuation c, fs.hasResult) :=
  setContinuation_eq c h

section Moving

variable {fs fs' : FutureState ε (Option α) κ ξ γ} {value : Try ε α} {move : Option (Exception ε)}

-- An assignment that throws leaves a `try_value_` behind that it has not found.
theorem assignResult_cases (h : fs.assignResult value move = some r) :
    fs.torn = false ∧
    ((∃ x, move = some x ∧ value.hasValue ∧ r = ({ fs with try_value_ := .value none }, some x)) ∨
      ((move = none ∨ value.hasValue = false) ∧ r = ({ fs with try_value_ := value.map some }, none))) := by
  simp only [assignResult] at h
  split at h
  case isTrue     => contradiction
  case isFalse ht =>
    refine ⟨eq_false_of_ne_true ht, ?_⟩
    cases value <;> cases move <;> cases h
    case value.some v x => exact .inl ⟨x, rfl, rfl, rfl⟩
    all_goals exact .inr ⟨by simp [Try.hasValue], rfl⟩

-- A call that has no T to move, or whose move does not throw, does what `setResult` does.
theorem setResultMoving_setResult (hr : fs.hasResult = false)
    (h : fs.assignResult value move = some ({ fs with try_value_ := value.map some }, none)) :
    fs.setResultMoving value move = (fs.setResult (value.map some)).toOption.map fun r => (r.1, .ok r.2) := by
  simp only [setResultMoving, setResult, hr, h, Bool.false_eq_true, if_false, Option.map_some]
  cases hs : fs.state_ <;> simp [hasResult, hs] at hr <;> rfl

theorem setResultMoving_withResult (hr : fs.hasResult = false)
    (h : fs.assignResult value move = some ({ fs with try_value_ := value.map some }, none)) :
    fs.setResultMoving value move = some (fs.withResult (value.map some), .ok fs.hasContinuation) := by
  rw [setResultMoving_setResult hr h, setResult_withResult hr]
  rfl

end Moving

@[simp] theorem try_value_withResult : (fs.withResult t).try_value_ = t := rfl
@[simp] theorem executor_withResult : (fs.withResult t).executor_ = fs.executor_ := rfl
@[simp] theorem continuation_withResult : (fs.withResult t).continuation_ = fs.continuation_ := rfl
@[simp] theorem try_value_withContinuation : (fs.withContinuation c).try_value_ = fs.try_value_ := rfl
@[simp] theorem executor_withContinuation : (fs.withContinuation c).executor_ = fs.executor_ := rfl
@[simp] theorem continuation_withContinuation : (fs.withContinuation c).continuation_ = some c := rfl
@[simp] theorem hasResult_setExecutor : (fs.setExecutor e).hasResult = fs.hasResult := rfl
@[simp] theorem hasContinuation_setExecutor : (fs.setExecutor e).hasContinuation = fs.hasContinuation := rfl

@[simp]
theorem hasResult_new : (new : FutureState ε α κ ξ γ).hasResult = false := by
  simp [hasResult, new]

@[simp]
theorem hasContinuation_new : (new : FutureState ε α κ ξ γ).hasContinuation = false := by
  simp [hasContinuation, new]

theorem force_scheduled_setResult (h : fs.setResult t = .ok (fs', done)) :
    fs'.force_scheduled = fs.force_scheduled := by
  simp only [setResult] at h
  split at h
  case isTrue  => contradiction
  case isFalse => split at h <;> cases h <;> rfl

theorem force_scheduled_setContinuation (h : fs.setContinuation c = .ok (fs', done)) :
    fs'.force_scheduled = fs.force_scheduled := by
  simp only [setContinuation] at h
  split at h
  case isTrue  => contradiction
  case isFalse => split at h <;> cases h <;> rfl

theorem executor_setResult (h : fs.setResult t = .ok (fs', done)) : fs'.executor_ = fs.executor_ := by
  simp only [setResult] at h
  split at h
  case isTrue  => contradiction
  case isFalse => split at h <;> cases h <;> rfl

theorem executor_setContinuation (h : fs.setContinuation c = .ok (fs', done)) : fs'.executor_ = fs.executor_ := by
  simp only [setContinuation] at h
  split at h
  case isTrue  => contradiction
  case isFalse => split at h <;> cases h <;> rfl

end FutureState
end AsyncSimple
