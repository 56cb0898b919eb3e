import AsyncSimple.Base.Try

namespace AsyncSimple

inductive State
  | kStart
  | kOnlyResult
  | kOnlyContinuation
  | kDone
  deriving DecidableEq, Repr

namespace State

def bits : State → Nat
  | kStart            => 0
  | kOnlyResult       => 1 <<< 0
  | kOnlyContinuation => 1 <<< 1
  | kDone             => 1 <<< 5

def hasResult (s : State) : Bool :=
  s.bits &&& (kDone.bits ||| kOnlyResult.bits) != 0

def hasContinuation (s : State) : Bool :=
  s.bits &&& (kDone.bits ||| kOnlyContinuation.bits) != 0

@[simp] theorem hasResult_kStart : kStart.hasResult = false := rfl
@[simp] theorem hasResult_kOnlyResult : kOnlyResult.hasResult = true := rfl
@[simp] theorem hasResult_kOnlyContinuation : kOnlyContinuation.hasResult = false := rfl
@[simp] theorem hasResult_kDone : kDone.hasResult = true := rfl
@[simp] theorem hasContinuation_kStart : kStart.hasContinuation = false := rfl
@[simp] theorem hasContinuation_kOnlyResult : kOnlyResult.hasContinuation = false := rfl
@[simp] theorem hasContinuation_kOnlyContinuation : kOnlyContinuation.hasContinuation = true := rfl
@[simp] theorem hasContinuation_kDone : kDone.hasContinuation = true := rfl

-- The moves that the documentation of the shared state allows.
inductive Move : State → State → Prop
  | setResult       : Move kStart kOnlyResult
  | setContinuation : Move kStart kOnlyContinuation
  | addContinuation : Move kOnlyResult kDone
  | addResult       : Move kOnlyContinuation kDone

end State

-- The state shared between a future and its promises. The type of continuations is left open, as
-- are executors `ξ` and their contexts `γ`. The reference counters are added in `Sync.Handles`.
@[ext]
structure FutureState (ε α κ ξ γ : Type) where
  state_          : State
  force_scheduled : Bool
  try_value_      : Try ε α
  continuation_   : Option κ
  executor_       : Option ξ
  context_        : Option γ

namespace FutureState

variable {ε α κ ξ γ : Type}

def new : FutureState ε α κ ξ γ where
  state_          := .kStart
  force_scheduled := false
  try_value_      := .nothing
  continuation_   := none
  executor_       := none
  context_        := none

def hasResult (fs : FutureState ε α κ ξ γ) : Bool :=
  fs.state_.hasResult

def hasContinuation (fs : FutureState ε α κ ξ γ) : Bool :=
  fs.state_.hasContinuation

def setExecutor (fs : FutureState ε α κ ξ γ) (executor : Option ξ) : FutureState ε α κ ξ γ :=
  { fs with executor_ := executor }

-- How `ScheduleContinuation` hands a task to the executor: by `Schedule`, or by `Checkin` with the
-- context and the `prompt` option.
inductive Submission (ξ γ : Type)
  | schedule (executor : ξ)
  | checkin  (executor : ξ) (context : γ) (prompt : Bool)
  deriving DecidableEq, Repr

-- This is `none` exactly if the source dereferences a null executor.
def submission (fs : FutureState ε α κ ξ γ) : Option (Submission ξ γ) :=
  fs.executor_.map fun executor =>
    match fs.context_ with
    | none         => .schedule executor
    | some context => .checkin executor context !fs.force_scheduled

-- The branch condition of `ScheduleContinuation`, where `inExecutor` is the answer to
-- `CurrentThreadInExecutor`.
def runsInline (fs : FutureState ε α κ ξ γ) (triggerByContinuation inExecutor : Bool) : Bool :=
  !fs.force_scheduled && (fs.executor_.isNone || triggerByContinuation || inExecutor)

-- Whether evaluating that condition gets as far as asking the executor.
def asksExecutor (fs : FutureState ε α κ ξ γ) (triggerByContinuation : Bool) : Bool :=
  !fs.force_scheduled && fs.executor_.isSome && !triggerByContinuation

-- `SetResult` and `SetContinuation` as they run without interference. The boolean tells whether the
-- call has moved the state to `kDone` and, hence, has to call `ScheduleContinuation`. The moves of T and
-- of the continuation do not throw here, unlike those of `setResultMoving` below.
def setResult (fs : FutureState ε α κ ξ γ) (value : Try ε α) :
    Except (Exception ε) (FutureState ε α κ ξ γ × Bool) :=
  if fs.hasResult then
    .error (.logicError "FutureState already has a result")
  else
    let fs := { fs with try_value_ := value }
    match fs.state_ with
    | .kStart            => .ok ({ fs with state_ := .kOnlyResult }, false)
    | .kOnlyContinuation => .ok ({ fs with state_ := .kDone }, true)
    | _                  => .error (.logicError "State Transfer Error")

def setContinuation (fs : FutureState ε α κ ξ γ) (func : κ) :
    Except (Exception ε) (FutureState ε α κ ξ γ × Bool) :=
  if fs.hasContinuation then
    .error (.logicError "FutureState already has a continuation")
  else
    let fs := { fs with continuation_ := some func }
    match fs.state_ with
    | .kStart      => .ok ({ fs with state_ := .kOnlyContinuation }, false)
    | .kOnlyResult => .ok ({ fs with state_ := .kDone }, true)
    | _            => .error (.logicError "State Transfer Error")

-- An assignment sets the tag of `try_value_` before it constructs a T. When this throws, then the tag says
-- that there is a T, and there is none, which is `.value none` here.
def torn (fs : FutureState ε (Option α) κ ξ γ) : Bool :=
  match fs.try_value_ with
  | .value none => true
  | _           => false

-- `try_value_ = std::move(value)`, where `move` is what the move construction of T throws, if it does.
-- There is no result when the assignment destroys a T that is not there.
def assignResult (fs : FutureState ε (Option α) κ ξ γ) (value : Try ε α) (move : Option (Exception ε)) :
    Option (FutureState ε (Option α) κ ξ γ × Option (Exception ε)) :=
  if fs.torn then
    none
  else
    match value, move with
    | .value _, some x => some ({ fs with try_value_ := .value none }, some x)
    | _,        _      => some ({ fs with try_value_ := value.map some }, none)

-- `SetResult` as it runs without interference, for a T whose move construction may throw.
def setResultMoving (fs : FutureState ε (Option α) κ ξ γ) (value : Try ε α) (move : Option (Exception ε)) :
    Option (FutureState ε (Option α) κ ξ γ × Except (Exception ε) Bool) :=
  if fs.hasResult then
    some (fs, .error (.logicError "FutureState already has a result"))
  else
    (fs.assignResult value move).map fun
      | (fs, some x) => (fs, .error x)
      | (fs, none)   =>
        match fs.state_ with
        | .kStart            => ({ fs with state_ := .kOnlyResult }, .ok false)
        | .kOnlyContinuation => ({ fs with state_ := .kDone }, .ok true)
        | _                  => (fs, .error (.logicError "State Transfer Error"))

theorem setResult_eq {fs : FutureState ε α κ ξ γ} (value : Try ε α) (h : fs.hasResult = false) :
    fs.setResult value =
      .ok ({ fs with
        try_value_ := value
        state_     := if fs.hasContinuation then .kDone else .kOnlyResult }, fs.hasContinuation) := by
  cases hs : fs.state_ <;>
    simp_all [setResult, FutureState.hasResult, FutureState.hasContinuation]

theorem setContinuation_eq {fs : FutureState ε α κ ξ γ} (func : κ) (h : fs.hasContinuation = false) :
    fs.setContinuation func =
      .ok ({ fs with
        continuation_ := some func
        state_        := if fs.hasResult then .kDone else .kOnlyContinuation }, fs.hasResult) := by
  cases hs : fs.state_ <;>
    simp_all [setContinuation, FutureState.hasResult, FutureState.hasContinuation]

end FutureState
end AsyncSimple
