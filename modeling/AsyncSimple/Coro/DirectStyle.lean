import AsyncSimple.Coro.Lazy

open Transition

namespace AsyncSimple
namespace Lazy

-- A coroutine that awaits other coroutines only, as objects of type `Lazy`, or of type `RescheduleLazy`
-- that `Via` has made. It goes on with a `Try`, as it may catch the exception of a `co_await`.
inductive Code (ε α ξ : Type) : Kind → Type
  | coReturn (v : α) : Code ε α ξ .value
  | coReturnVoid : Code ε α ξ .void
  | throw (x : Exception ε) : Code ε α ξ k
  | await (child : Code ε α ξ k') (f : Try ε (Option α) → Code ε α ξ k) : Code ε α ξ k
  | awaitVia (executor : ξ) (child : Code ε α ξ k') (f : Try ε (Option α) → Code ε α ξ k) : Code ε α ξ k

variable {ε α ξ θ χ : Type}

namespace Code

def body : Code ε α ξ k → Body ε α ξ k
  | coReturn v                => .coReturn v
  | coReturnVoid              => .coReturnVoid
  | throw x                   => .throw x
  | await child f             => .await child.body fun r => (f r).body
  | awaitVia executor child f => .awaitVia (some executor) child.body fun r => (f r).body

-- The outcome of the same code, when it is evaluated by ordinary nested calls.
def eval : Code ε α ξ k → Try ε (Option α)
  | coReturn v                       => .value (some v)
  | coReturnVoid                     => .value none
  | throw x                          => .exception x
  | await child f | awaitVia _ child f => (f child.eval).eval

end Code

-- What happens to a coroutine: it is awaited, its body is started, `FinalAwaiter` resumes its
-- continuation, and the one that has awaited it goes on with its result.
inductive Moment
  | awaited
  | started
  | transferred
  | resumed
  deriving DecidableEq, Repr

-- What the next step of a coroutine does to this coroutine, or to one that it awaits.

def Body.moment (length c : Nat) : Body ε α ξ k → Option (Moment × Nat)
  | coReturn _ | coReturnVoid | throw _ => some (.transferred, c)
  | await _ _                           => some (.awaited, length)
  | awaitVia _ _ _                      => some (.awaited, length + 1)
  | _                                   => none

def Cell.moment (length c : Nat) : Cell ε α ξ θ χ → Option (Moment × Nat)
  | lazy f =>
    match f.stage with
    | .initial _        => some (.started, c)
    | .running body     => body.moment length c
    | .awaiting child _ => some (.resumed, child)
    | _                 => none
  | launch _ child _ awaiting => if awaiting then some (.resumed, child) else some (.awaited, child)
  | _                         => none

namespace Config

def momentNode (s : Config ε α ξ θ χ) : Node → Option (Moment × Nat)
  | .coro c => s.cells[c]?.bind (·.moment s.cells.length c)
  | _       => none

def moment (s : Config ε α ξ θ χ) : Action ε α θ → Option (Moment × Nat)
  | .run _ _  => none
  | .step i _ => s.tokens[i]?.bind fun tok => s.momentNode tok.node

end Config

-- The caller is on a thread of the executor that the coroutine is bound to.
def Setup.callerInExecutor (m : Setup ε α ξ θ χ) : Bool :=
  m.executor_.any fun executor => (m.executor executor).currentThreadInExecutor m.thread

-- What `SyncAwait` returns or throws. When one of its assertions fails, it throws at once, and has not
-- started anything. Otherwise, it calls `Start`, and `s` is a state of the run after that, in which it
-- waits until its callback has been called.
def syncAwait (lazy : Option (Setup ε α ξ θ χ)) (s : Config ε α ξ θ χ) : Option (Except (Exception ε) (Option α)) :=
  match lazy with
  | none   => some (.error (.logicError "Lazy do not have a coroutine handle"))
  | some m =>
    if m.callerInExecutor then
      some (.error (.logicError "do not sync await in the same executor with Lazy"))
    else
      s.delivered.head?.map Try.getValue

-- The runs, with the moments of all coroutines in their order.
def Setup.history (m : Setup ε α ξ θ χ) : System (Config ε α ξ θ χ × List (Moment × Nat)) (Action ε α θ) :=
  m.system.record [] fun s a _ log => log ++ (s.moment a).toList

end Lazy
end AsyncSimple
