import AsyncSimple.Sync.Chain

open Transition

namespace AsyncSimple
namespace Wait

-- The next step of the thread that calls `Wait`. Its last steps are that it has returned, that the
-- executor has thrown when asked, and that the assertion has failed.
inductive Pc
  | hasResult
  | currentThreadInExecutor
  | makePromise
  | setExecutor
  | setContinuation
  | acquire
  | moveAssign
  | returned
  | threw
  | aborted
  deriving DecidableEq, Repr

-- The future that is waited for has one of its kinds of state. Besides, `Wait` may assign it the future
-- of a promise of its own.
inductive Target
  | localState
  | sharedState
  | own
  deriving DecidableEq, Repr

structure Setup (ε α ξ : Type) where
  source          : Fut ε α ξ
  force_scheduled : Bool

-- The pending `ScheduleContinuation`, if there is one, is `dispatch`, with its argument. No step reads
-- `late`, which tells that `Wait` has not found a result.
structure Config (ε α ξ : Type) where
  target   : Target
  local_   : LocalState ε α ξ
  shared   : FutureState ε α Unit ξ Empty
  own      : FutureState ε α Empty ξ Empty
  promise  : Option (Fate ε α)
  pc       : Pc
  dispatch : Option Bool
  released : Bool
  late     : Bool

inductive Action
  -- The next step of `Wait`, where the executor answers whether it has the current thread, or throws.
  | wait (inExecutor : Option Bool)
  -- The user sets the result of the promise, or drops the promise.
  | fulfil
  -- `ScheduleContinuation`, by the thread that has completed the pair.
  | schedule (inExecutor : Bool)

variable {ε α ξ : Type}

namespace Config

def hasResult (s : Config ε α ξ) : Bool :=
  match s.target with
  | .localState  => s.local_.try_value_.available
  | .sharedState => s.shared.hasResult
  | .own         => s.own.hasResult

def wait (s : Config ε α ξ) (inExecutor : Option Bool) : Option (Config ε α ξ) :=
  match s.pc with
  | .hasResult =>
    if s.hasResult then
      some { s with pc := .returned }
    else
      some { s with pc := .currentThreadInExecutor, late := true }
  | .currentThreadInExecutor =>
    if s.shared.executor_.isSome then
      match inExecutor with
      | none       => some { s with pc := .threw }
      | some true  => some { s with pc := .aborted }
      | some false => some { s with pc := .makePromise }
    else
      some { s with pc := .makePromise }
  | .makePromise     => some { s with own := .new, pc := .setExecutor }
  | .setExecutor     => some { s with shared := s.shared.setExecutor none, pc := .setContinuation }
  | .setContinuation =>
    match s.shared.setContinuation () with
    | .ok (fs, true)  => some { s with shared := fs, pc := .acquire, dispatch := some true }
    | .ok (fs, false) => some { s with shared := fs, pc := .acquire }
    | .error _        => some { s with pc := .threw }
  | .acquire    => if s.released then some { s with pc := .moveAssign } else none
  | .moveAssign => some { s with target := .own, pc := .returned }
  | .returned | .threw | .aborted => none

def fulfil (s : Config ε α ξ) : Option (Config ε α ξ) :=
  match s.promise with
  | some fate =>
    match s.shared.setResult (.makeTryCall fate.outcome) with
    | .ok (fs, true)  => some { s with shared := fs, promise := none, dispatch := some false }
    | .ok (fs, false) => some { s with shared := fs, promise := none }
    | .error _        => none
  | none => none

-- The continuation that `Wait` sets.
def continuation (s : Config ε α ξ) : Option (Config ε α ξ) :=
  match s.own.setResult s.shared.try_value_ with
  | .ok (fs, _) => some { s with own := fs, dispatch := none, released := true }
  | .error _    => none

-- This is `none` if the source dereferences a null executor. An executor runs the continuation later, or
-- the same thread runs it if the executor does not accept it.
def schedule (s : Config ε α ξ) (inExecutor : Bool) : Option (Config ε α ξ) :=
  match s.dispatch with
  | some triggerByContinuation =>
    if s.shared.runsInline triggerByContinuation inExecutor then
      s.continuation
    else
      s.shared.submission.bind fun _ => s.continuation
  | none => none

-- The future after `Wait`, as a source of further callbacks.
def future (s : Config ε α ξ) : Fut ε α ξ :=
  match s.target with
  | .localState  => .localState s.local_.try_value_.getValue s.local_.executor_
  | .sharedState => .sharedState (.fulfilled s.shared.try_value_.getValue) true s.shared.executor_
  | .own         => .sharedState (.fulfilled s.own.try_value_.getValue) true s.own.executor_

def result (s : Config ε α ξ) : Option (Try ε α) :=
  if s.hasResult then
    match s.target with
    | .localState  => some s.local_.try_value_
    | .sharedState => some s.shared.try_value_
    | .own         => some s.own.try_value_
  else
    none

-- `GetExecutor`
def executor (s : Config ε α ξ) : Option ξ :=
  match s.target with
  | .localState  => s.local_.executor_
  | .sharedState => s.shared.executor_
  | .own         => s.own.executor_

def hasContinuation (s : Config ε α ξ) : Bool :=
  match s.target with
  | .localState  => false
  | .sharedState => s.shared.hasContinuation
  | .own         => s.own.hasContinuation

end Config

namespace Setup

def init (m : Setup ε α ξ) : Config ε α ξ :=
  let s : Config ε α ξ := {
    target   := .localState
    local_   := ⟨.nothing, none⟩
    shared   := .new
    own      := .new
    promise  := none
    pc       := .hasResult
    dispatch := none
    released := false
    late     := false
  }
  match m.source with
  | .localState r executor           => { s with local_ := ⟨.makeTryCall r, executor⟩ }
  | .sharedState fate early executor =>
    let fs := { s.shared with force_scheduled := m.force_scheduled, executor_ := executor }
    let s := { s with target := .sharedState }
    if early then
      { s with shared := { fs with state_ := .kOnlyResult, try_value_ := .makeTryCall fate.outcome } }
    else
      { s with shared := fs, promise := some fate }

def system (m : Setup ε α ξ) : System (Config ε α ξ) Action where
  init := m.init
  step s
    | .wait inExecutor     => s.wait inExecutor
    | .fulfil              => s.fulfil
    | .schedule inExecutor => s.schedule inExecutor

end Setup
end Wait
end AsyncSimple
