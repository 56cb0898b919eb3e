import AsyncSimple.Lib.Transition
import AsyncSimple.Sync.FutureState
import Mathlib.Logic.Function.Basic

open Transition

namespace AsyncSimple

-- Threads that race on one shared state: each `i : ι` calls `SetResult` once, and one more thread
-- calls `SetContinuation` once.
inductive Caller (ι : Type)
  | result (i : ι)
  | continuation
  deriving DecidableEq

namespace Caller

variable {ι : Type}

-- `SetResult` and `SetContinuation` are the same program over the following values.

def hasSettled : Caller ι → State → Bool
  | result _     => State.hasResult
  | continuation => State.hasContinuation

def only : Caller ι → State
  | result _     => .kOnlyResult
  | continuation => .kOnlyContinuation

def opposite : Caller ι → State
  | result _     => .kOnlyContinuation
  | continuation => .kOnlyResult

def triggerByContinuation : Caller ι → Bool
  | result _     => false
  | continuation => true

def rejection : Caller ι → String
  | result _     => "FutureState already has a result"
  | continuation => "FutureState already has a continuation"

end Caller

namespace Rendezvous

-- The next step of a running `ScheduleContinuation`.
inductive SchedulePc
  | entry
  | decide
  | inline
  | submit
  | fallback
  deriving DecidableEq, Repr

-- The next step of a call. A step with an argument `state` has the local variable of that name,
-- which a failing `compare_exchange_strong` refreshes.
inductive Pc (ε : Type)
  | check
  | write
  | load
  | casStart
  | assertMoved (state : State)
  | casDone     (state : State)
  | transferError
  | schedule    (pc : SchedulePc)
  | returned
  | threw       (x : Exception ε)
  | aborted
  | nullExecutor
  deriving DecidableEq, Repr

-- What the environment answers in a step: the executor to `CurrentThreadInExecutor` and to
-- `Schedule` or `Checkin`, and the continuation, which may throw when it is called.
structure Reply (ε : Type) where
  inExecutor : Except (Exception ε) Bool
  accept     : Except (Exception ε) Bool
  body       : Option (Exception ε)

inductive Handoff (ξ γ : Type)
  | inline
  | accepted (call : FutureState.Submission ξ γ)
  | refused
  deriving DecidableEq, Repr

structure Setup (ε α κ ξ γ ι : Type) where
  value           : ι → Try ε α
  func            : κ
  force_scheduled : Bool
  executor_       : Option ξ
  context_        : Option γ
  ndebug          : Bool

-- The fields from `doneBy` on are a record of the run, which no step reads: the callers that have
-- moved the state to `kDone`, those that have called `ScheduleContinuation`, what has become of the
-- continuation, and the calls of the continuation with their argument.
structure Config (ε α κ ξ γ ι : Type) where
  fs       : FutureState ε α κ ξ γ
  pc       : Caller ι → Pc ε
  tasks    : Nat
  doneBy   : List (Caller ι)
  calls    : List (Caller ι)
  handoffs : List (Handoff ξ γ)
  invoked  : List (Option κ × Try ε α)

inductive Action (ε ι : Type)
  | step (c : Caller ι) (r : Reply ε)
  -- The executor runs a task that it has accepted.
  | runTask

variable {ε α κ ξ γ ι : Type} [DecidableEq ι]

namespace Config

def goto (s : Config ε α κ ξ γ ι) (c : Caller ι) (pc : Pc ε) : Config ε α κ ξ γ ι :=
  { s with pc := Function.update s.pc c pc }

def setState (s : Config ε α κ ξ γ ι) (state : State) : Config ε α κ ξ γ ι :=
  { s with fs.state_ := state }

-- `continuation_(std::move(try_value_))`
def invoke (s : Config ε α κ ξ γ ι) : Config ε α κ ξ γ ι :=
  { s with invoked := s.invoked ++ [(s.fs.continuation_, s.fs.try_value_)] }

def handOff (s : Config ε α κ ξ γ ι) (h : Handoff ξ γ) : Config ε α κ ξ γ ι :=
  { s with handoffs := s.handoffs ++ [h] }

end Config

namespace Setup

def init (m : Setup ε α κ ξ γ ι) : Config ε α κ ξ γ ι where
  fs       := { (.new : FutureState ε α κ ξ γ) with
                force_scheduled := m.force_scheduled
                executor_       := m.executor_
                context_        := m.context_ }
  pc _     := .check
  tasks    := 0
  doneBy   := []
  calls    := []
  handoffs := []
  invoked  := []

def write (m : Setup ε α κ ξ γ ι) (s : Config ε α κ ξ γ ι) : Caller ι → Config ε α κ ξ γ ι
  | .result i     => { s with fs.try_value_ := m.value i }
  | .continuation => { s with fs.continuation_ := some m.func }

def afterInvoke (r : Reply ε) : Pc ε :=
  match r.body with
  | none   => .returned
  | some x => .threw x

def stepSchedule (s : Config ε α κ ξ γ ι) (c : Caller ι) (r : Reply ε) :
    SchedulePc → Config ε α κ ξ γ ι
  | .entry =>
    let s := { s with calls := s.calls ++ [c] }
    if s.fs.state_ = .kDone then
      s.goto c (.schedule .decide)
    else
      s.goto c (.threw (.logicError "FutureState is not done"))
  | .decide =>
    if s.fs.asksExecutor c.triggerByContinuation then
      match r.inExecutor with
      | .ok inExecutor =>
        if s.fs.runsInline c.triggerByContinuation inExecutor then
          s.goto c (.schedule .inline)
        else
          s.goto c (.schedule .submit)
      | .error x => s.goto c (.threw x)
    else if s.fs.runsInline c.triggerByContinuation false then
      s.goto c (.schedule .inline)
    else
      s.goto c (.schedule .submit)
  | .inline => (s.handOff .inline).invoke.goto c (afterInvoke r)
  | .submit =>
    match s.fs.submission with
    | none => s.goto c .nullExecutor
    | some call =>
      match r.accept with
      | .ok true  => { s.handOff (.accepted call) with tasks := s.tasks + 1 }.goto c .returned
      | .ok false => s.goto c (.schedule .fallback)
      | .error x  => s.goto c (.threw x)
  | .fallback => (s.handOff .refused).invoke.goto c (afterInvoke r)

def stepCaller (m : Setup ε α κ ξ γ ι) (s : Config ε α κ ξ γ ι) (c : Caller ι) (r : Reply ε) :
    Option (Config ε α κ ξ γ ι) :=
  match s.pc c with
  | .check =>
    if c.hasSettled s.fs.state_ then
      s.goto c (.threw (.logicError c.rejection))
    else
      s.goto c .write
  | .write => (m.write s c).goto c .load
  | .load =>
    if s.fs.state_ = .kStart then
      s.goto c .casStart
    else if s.fs.state_ = c.opposite then
      s.goto c (.casDone s.fs.state_)
    else
      s.goto c .transferError
  | .casStart =>
    if s.fs.state_ = .kStart then
      (s.setState c.only).goto c .returned
    else
      s.goto c (.assertMoved s.fs.state_)
  | .assertMoved state =>
    if s.fs.state_ = c.opposite || m.ndebug then
      s.goto c (.casDone state)
    else
      s.goto c .aborted
  | .casDone state =>
    if s.fs.state_ = state then
      { s.setState .kDone with doneBy := s.doneBy ++ [c] }.goto c (.schedule .entry)
    else
      s.goto c .transferError
  | .transferError => s.goto c (.threw (.logicError "State Transfer Error"))
  | .schedule pc => stepSchedule s c r pc
  | .returned | .threw _ | .aborted | .nullExecutor => none

def runTask (s : Config ε α κ ξ γ ι) : Option (Config ε α κ ξ γ ι) :=
  if s.tasks = 0 then none else some { s.invoke with tasks := s.tasks - 1 }

def system (m : Setup ε α κ ξ γ ι) : System (Config ε α κ ξ γ ι) (Action ε ι) where
  init := m.init
  step s
    | .step c r => m.stepCaller s c r
    | .runTask  => runTask s

end Setup
end Rendezvous
end AsyncSimple
