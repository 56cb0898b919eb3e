import AsyncSimple.Sync.Handles

open Transition

namespace AsyncSimple
namespace Lifetime

-- The handles of a shared state, where a promise is `detaching` between `DetachPromise` setting a
-- result and calling `DetachOne`.
inductive Holder
  | promise
  | detaching
  | future
  deriving DecidableEq, Repr

-- The next step of `ScheduleContinuation`, which has been called through the handle `caller`. It
-- runs the continuation at once, or it has submitted a task to the executor. If the executor refuses
-- the task, then the continuation is run at once as well.
inductive SchedulePc
  | idle
  | decide (caller : Holder)
  | call
  | running
  | called
  | submit
  | submitted
  | fallback
  | fallbackRunning
  | returning
  | returned
  deriving DecidableEq, Repr

-- What the executor has done with the task.
inductive Run
  | notStarted
  | running
  | finished
  deriving DecidableEq, Repr

-- One shared state with its handles. There are `tasks` copies of the task that the executor is not
-- running, each of which has a `ContinuationReference`, and `accepted` is what `Schedule` or `Checkin`
-- has returned. The last three fields are a record of how often the `std::function` of the union has
-- been constructed, executed to the end, and destroyed.
structure Config (ε α κ ξ γ : Type) where
  fs          : SharedState ε α κ ξ γ
  holders     : Holder → Nat
  pc          : SchedulePc
  tasks       : Nat
  run         : Run
  accepted    : Option Bool
  fault       : Option Fault
  constructed : Nat
  executed    : Nat
  destroyed   : Nat

-- The moves of handles are left out, as they change neither a counter nor a number of handles, except
-- for move assignment, when it overwrites a handle that refers to the state.
inductive Action (ε α κ : Type)
  | copyPromise
  | destroyPromise
  | detachOne
  | overwritePromise
  | getFuture
  | destroyFuture
  | overwriteFuture
  | setResult       (value : Try ε α)
  | setContinuation (func : κ)
  | schedule        (inline accept : Bool)
  | copyTask
  | destroyTask
  | runTask
  | finishTask

variable {ε α κ ξ γ : Type}

namespace Config

-- A promise, which has just been created.
def new : Config ε α κ ξ γ where
  fs          := SharedState.new.attachPromise
  holders     := fun | .promise => 1 | _ => 0
  pc          := .idle
  tasks       := 0
  run         := .notStarted
  accepted    := none
  fault       := none
  constructed := 0
  executed    := 0
  destroyed   := 0

-- The call of `ScheduleContinuation` needs the handle through which it has been called, until it has
-- created its guards.
def uses (s : Config ε α κ ξ γ) (h : Holder) : Nat :=
  if s.pc = .decide h then 1 else 0

def add (s : Config ε α κ ξ γ) (h : Holder) : Config ε α κ ξ γ :=
  { s with holders := Function.update s.holders h (s.holders h + 1) }

def remove (s : Config ε α κ ξ γ) (h : Holder) : Config ε α κ ξ γ :=
  { s with holders := Function.update s.holders h (s.holders h - 1) }

-- Calls a member function of the shared state.
def call (s : Config ε α κ ξ γ) (f : SharedState ε α κ ξ γ → Except Fault (SharedState ε α κ ξ γ)) :
    Config ε α κ ξ γ :=
  if s.fs.deleted then
    { s with fault := some .useAfterDelete }
  else
    match f s.fs with
    | .ok fs   => { s with fs }
    | .error f => { s with fault := some f }

def attachReference (s : Config ε α κ ξ γ) : Config ε α κ ξ γ :=
  s.call (.ok ·.attachReference)

-- `DerefContinuation` destroys the continuation together with its last reference.
def detachReference (s : Config ε α κ ξ γ) : Config ε α κ ξ γ :=
  { s with destroyed := s.destroyed + if s.fs.continuation_ref_ = 1 then 1 else 0 }.call
    (·.detachReference)

-- `continuation_(std::move(try_value_))`
def execute (s : Config ε α κ ξ γ) : Config ε α κ ξ γ :=
  s.call .ok

-- The state has been moved to `kDone`, if `done` holds, by a call through the handle `h`.
def scheduleContinuation (s : Config ε α κ ξ γ) (h : Holder) (done : Bool) : Config ε α κ ξ γ :=
  if done then { s with pc := .decide h } else s

-- Calls of `SetResult` and `SetContinuation` take effect at once, as far as the state is concerned. Moves
-- of `T` do not throw.
def setResult (s : Config ε α κ ξ γ) (h : Holder) (value : Try ε α) : Config ε α κ ξ γ :=
  match s.fs.toFutureState.setResult value with
  | .ok (fs, done) => { s with fs.toFutureState := fs }.scheduleContinuation h done
  | .error _       => s

def setContinuation (s : Config ε α κ ξ γ) (func : κ) : Config ε α κ ξ γ :=
  match s.fs.toFutureState.setContinuation func with
  | .ok (fs, done) =>
    { s with
      fs.toFutureState := fs
      constructed := s.constructed + 1 }.scheduleContinuation .future done
  | .error _ => s

-- `DetachPromise` up to its call of `DetachOne`.
def detachPromise (s : Config ε α κ ξ γ) : Config ε α κ ξ γ :=
  let old := s.fs.promise_ref_
  if old ≥ 1 then
    let s := { s with fs.promise_ref_ := old - 1 }
    if !s.fs.hasResult && old = 1 then s.setResult .detaching SharedState.brokenPromise else s
  else
    { s with fault := some .assertFailed }

-- The executor answers: neither its functions nor the continuation throw.
def stepSchedule (s : Config ε α κ ξ γ) (inline accept : Bool) : Option (Config ε α κ ξ γ) :=
  match s.pc with
  | .decide _ =>
    if inline then
      some { s.attachReference with pc := .call }
    else
      some { s.attachReference.attachReference with pc := .submit }
  | .call    => some { s.execute with pc := .running }
  | .running => some { s with pc := .called, executed := s.executed + 1 }
  | .called  => some { s.detachReference with pc := .returned }
  -- The reference of `guard` is moved into the task.
  | .submit  => some { s with pc := .submitted, tasks := 1 }
  -- The executor returns true only if it has run the task, or is able to run it later; and it
  -- returns false only if it has not run it.
  | .submitted =>
    if accept then
      if s.run ≠ .notStarted ∨ 0 < s.tasks then
        some { s with pc := .returning, accepted := some true }
      else
        none
    else
      if s.run = .notStarted then some { s with pc := .fallback, accepted := some false } else none
  | .fallback        => some { s.execute with pc := .fallbackRunning }
  | .fallbackRunning => some { s with pc := .returning, executed := s.executed + 1 }
  | .returning       => some { s.detachReference with pc := .returned }
  | .idle | .returned => none

-- The executor does not destroy the last copy of a task that it has accepted, before it has run it.
def destroyTask (s : Config ε α κ ξ γ) : Option (Config ε α κ ξ γ) :=
  if s.tasks = 0 ∨ (s.accepted = some true ∧ s.run = .notStarted ∧ s.tasks = 1) then
    none
  else
    some { s.detachReference with tasks := s.tasks - 1 }

def step (s : Config ε α κ ξ γ) : Action ε α κ → Option (Config ε α κ ξ γ)
  | .copyPromise =>
    if s.holders .promise = 0 then none else some ((s.call (.ok ·.attachPromise)).add .promise)
  | .destroyPromise =>
    if s.holders .promise ≤ s.uses .promise then
      none
    else
      some ((s.detachPromise.remove .promise).add .detaching)
  | .detachOne =>
    if s.holders .detaching ≤ s.uses .detaching then
      none
    else
      some ((s.call (·.detachOne)).remove .detaching)
  | .overwritePromise =>
    if s.holders .promise ≤ s.uses .promise then
      none
    else
      some ({ s with fs.lostPromises := s.fs.lostPromises + 1 }.remove .promise)
  | .getFuture =>
    if s.holders .promise = 0 then none else some ((s.call (.ok ·.attachOne)).add .future)
  | .destroyFuture =>
    if s.holders .future ≤ s.uses .future then
      none
    else
      some ((s.call (·.detachOne)).remove .future)
  | .overwriteFuture =>
    if s.holders .future ≤ s.uses .future then
      none
    else
      some ({ s with fs.lostFutures := s.fs.lostFutures + 1 }.remove .future)
  | .setResult value       => if s.holders .promise = 0 then none else some (s.setResult .promise value)
  | .setContinuation func  => if s.holders .future = 0 then none else some (s.setContinuation func)
  | .schedule inline accept => s.stepSchedule inline accept
  | .copyTask =>
    if s.tasks = 0 ∧ s.run ≠ .running then none else some { s.attachReference with tasks := s.tasks + 1 }
  | .destroyTask => s.destroyTask
  | .runTask =>
    if s.tasks = 0 ∨ s.run ≠ .notStarted ∨ s.accepted = some false then
      none
    else
      some { s.execute with tasks := s.tasks - 1, run := .running }
  | .finishTask =>
    if s.run = .running then
      some { s with run := .finished, tasks := s.tasks + 1, executed := s.executed + 1 }
    else
      none

end Config

def system : System (Config ε α κ ξ γ) (Action ε α κ) where
  init := .new
  step s a := if s.fault = none then s.step a else none

end Lifetime
end AsyncSimple
