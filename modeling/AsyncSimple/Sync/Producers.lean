import AsyncSimple.Sync.Rendezvous

-- Any number of producers that race on one shared state, where a move construction of T may throw.

open Transition

namespace AsyncSimple
namespace Rendezvous

variable {ε α κ ξ γ ι : Type} [DecidableEq ι]

inductive MoveAction (ε ι : Type)
  | act (a : Action ε ι)
  -- The move construction of T throws in the assignment to `try_value_`.
  | moveThrows (i : ι) (x : Exception ε)

namespace Setup

def lift (m : Setup ε α κ ξ γ ι) : Setup ε (Option α) κ ξ γ ι where
  value i         := (m.value i).map some
  func            := m.func
  force_scheduled := m.force_scheduled
  executor_       := m.executor_
  context_        := m.context_
  ndebug          := m.ndebug

def moveThrows (m : Setup ε α κ ξ γ ι) (s : Config ε (Option α) κ ξ γ ι) (i : ι) (x : Exception ε) :
    Option (Config ε (Option α) κ ξ γ ι) :=
  match s.pc (.result i), s.fs.assignResult (m.value i) (some x) with
  | .write, some (fs, some x) => some ({ s with fs := fs }.goto (.result i) (.threw x))
  | _,      _                 => none

-- Nothing is said about a run once `try_value_` is torn, as its T is used that is not there.
def moving (m : Setup ε α κ ξ γ ι) : System (Config ε (Option α) κ ξ γ ι) (MoveAction ε ι) where
  init := m.lift.init
  step s
    | .act a          => if s.fs.torn then none else m.lift.system.step s a
    | .moveThrows i x => m.moveThrows s i x

end Setup

-- Whether the call of `c` is in a `ScheduleContinuation` whose next call throws, or is made to a null
-- executor.
def Reply.fails (r : Reply ε) (s : Config ε α κ ξ γ ι) (c : Caller ι) : Bool :=
  match s.pc c with
  | .schedule .decide                       => s.fs.asksExecutor c.triggerByContinuation && !r.inExecutor.isOk
  | .schedule .submit                       => s.fs.submission.isNone || !r.accept.isOk
  | .schedule .inline | .schedule .fallback => r.body.isSome
  | _                                       => false

end Rendezvous
end AsyncSimple
