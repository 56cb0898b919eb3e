import AsyncSimple.Lib.Transition
import AsyncSimple.Sync.FutureState

open Transition

namespace AsyncSimple

namespace FutureState

variable {ε α κ ξ γ : Type}

-- The argument is what `Checkout` of the executor returns, if there is one.
def checkout (fs : FutureState ε α κ ξ γ) (context : Option γ) : FutureState ε α κ ξ γ :=
  match fs.executor_ with
  | some _ => { fs with context_ := context }
  | none   => fs

def setForceScheduled (fs : FutureState ε α κ ξ γ) (force : Bool) : FutureState ε α κ ξ γ :=
  if fs.executor_.isNone && force then fs else { fs with force_scheduled := force }

end FutureState

namespace Dispatch

-- The operations on a promise and its future. An argument `inExecutor` is the answer of the executor
-- to `CurrentThreadInExecutor`, should it be asked; `context` is what its `Checkout` returns.
inductive Op (ε α κ ξ γ : Type)
  | setExecutor     (executor : Option ξ)
  | checkout        (context : Option γ)
  | forceScheduled
  | wait            (func : κ) (inExecutor : Bool)
  | setContinuation (func : κ)
  | setResult       (value : Try ε α) (inExecutor : Bool)

-- The last two fields are a record: of the contexts that have been checked out, with their executors,
-- and of `executor_` and `context_` whenever `ScheduleContinuation` has taken its scheduling branch.
structure Pair (ε α κ ξ γ : Type) where
  fs        : FutureState ε α κ ξ γ
  checkouts : List (ξ × γ)
  scheduled : List (Option ξ × Option γ)

namespace Pair

variable {ε α κ ξ γ : Type}

def new : Pair ε α κ ξ γ where
  fs        := .new
  checkouts := []
  scheduled := []

def scheduleContinuation (s : Pair ε α κ ξ γ) (triggerByContinuation inExecutor : Bool) :
    Pair ε α κ ξ γ :=
  if s.fs.runsInline triggerByContinuation inExecutor then
    s
  else
    { s with scheduled := s.scheduled ++ [(s.fs.executor_, s.fs.context_)] }

-- When a call throws, then the shared state is left as it was.
def setResult (s : Pair ε α κ ξ γ) (value : Try ε α) (inExecutor : Bool) : Pair ε α κ ξ γ :=
  match s.fs.setResult value with
  | .ok (fs, true)  => { s with fs }.scheduleContinuation false inExecutor
  | .ok (fs, false) => { s with fs }
  | .error _        => s

def setContinuation (s : Pair ε α κ ξ γ) (func : κ) : Pair ε α κ ξ γ :=
  match s.fs.setContinuation func with
  | .ok (fs, true)  => { s with fs }.scheduleContinuation true false
  | .ok (fs, false) => { s with fs }
  | .error _        => s

-- There is no next state when `ASSERT(!CurrentThreadInExecutor())` fails.
def wait (s : Pair ε α κ ξ γ) (func : κ) (inExecutor : Bool) : Option (Pair ε α κ ξ γ) :=
  if s.fs.hasResult then
    some s
  else if s.fs.executor_.isSome && inExecutor then
    none
  else
    some ({ s with fs := s.fs.setExecutor none }.setContinuation func)

def checkout (s : Pair ε α κ ξ γ) (context : Option γ) : Pair ε α κ ξ γ :=
  { s with
    fs        := s.fs.checkout context
    checkouts :=
      match s.fs.executor_, context with
      | some executor, some context => s.checkouts ++ [(executor, context)]
      | _, _                        => s.checkouts }

def step (s : Pair ε α κ ξ γ) : Op ε α κ ξ γ → Option (Pair ε α κ ξ γ)
  | .setExecutor executor       => some { s with fs := s.fs.setExecutor executor }
  | .checkout context           => some (s.checkout context)
  | .forceScheduled             => some { s with fs := s.fs.setForceScheduled true }
  | .wait func inExecutor       => s.wait func inExecutor
  | .setContinuation func       => some (s.setContinuation func)
  | .setResult value inExecutor => some (s.setResult value inExecutor)

end Pair

def system (ε α κ ξ γ : Type) : System (Pair ε α κ ξ γ) (Op ε α κ ξ γ) where
  init := .new
  step := Pair.step

-- What `ScheduleContinuation` relies on. In its scheduling branch, the executor is not null, and has
-- returned the context itself.
structure Dispatchable (s : Pair ε α κ ξ γ) : Prop where
  forced    : s.fs.force_scheduled → s.fs.executor_.isSome
  belongs   : s.fs.executor_ = some e → s.fs.context_ = some c → (e, c) ∈ s.checkouts
  scheduled : (e, c) ∈ s.scheduled →
    e.isSome ∧ ∀ e' c', e = some e' → c = some c' → (e', c') ∈ s.checkouts

end Dispatch
end AsyncSimple
