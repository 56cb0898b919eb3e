import AsyncSimple.Coro.Lazy

open Transition

namespace AsyncSimple
namespace Lazy

variable {ε α ξ θ χ : Type}

namespace Body

-- Without an executor, it is the thread that sleeps.
def sleep : Body ε α ξ .void :=
  .currentExecutor fun executor =>
    match executor with
    | none          => .coReturnVoid
    | some executor => .scheduleAfter executor .coReturnVoid

-- `co_await AT(std::move(input), out_alloc)`, for coroutines that are not bound to an executor.
def awaitAll (para : Bool) (input : List (Body ε α ξ k')) (f : List (Try ε (Option α)) → Body ε α ξ k) :
    Body ε α ξ k :=
  .collectAll input.length para false (fun _ => none) input.get f

-- The loop of `CollectAllWindowedImpl`, where the next window begins with `child`.
def windows (para : Bool) (max_concurrency : Nat) (yield : Bool) (f : List (Try ε (Option α)) → Body ε α ξ k) :
    List (Body ε α ξ k') → List (Try ε (Option α)) → Body ε α ξ k
  | [], output             => f output
  | child :: input, output =>
    awaitAll para (child :: input.take (max_concurrency - 1)) fun tmp_output =>
      let loop := windows para max_concurrency yield f (input.drop (max_concurrency - 1)) (output ++ tmp_output)
      if yield then .yield loop else loop
termination_by input => input.length
decreasing_by simp only [List.length_drop, List.length_cons]; omega

def collectAllWindowed (para : Bool) (max_concurrency : Nat) (yield : Bool) (input : List (Body ε α ξ k'))
    (f : List (Try ε (Option α)) → Body ε α ξ k) : Body ε α ξ k :=
  if max_concurrency = 0 ∨ input.length ≤ max_concurrency then
    awaitAll para input f
  else
    windows para max_concurrency yield f input []

-- A body that does not name an executor.
def Unbound : Body ε α ξ k → Prop
  | coReturn _ | coReturnVoid | throw _              => True
  | currentExecutor f                                => (f none).Unbound
  | yield body                                       => body.Unbound
  | schedule _ _ | scheduleAfter _ _ | awaitVia _ _ _ => False
  | await child f                                    => child.Unbound ∧ ∀ r, (f r).Unbound
  | awaitExternal _ f                                => ∀ r, (f r).Unbound
  | collectAll _ _ reschedule executors children f   =>
    reschedule = false ∧ (∀ i, executors i = none) ∧ (∀ i, (children i).Unbound) ∧ ∀ r, (f r).Unbound
  | collectAny _ _ reschedule executors children f   =>
    reschedule = false ∧ (∀ i, executors i = none) ∧ (∀ i, (children i).Unbound) ∧ ∀ r, (f r).Unbound

-- `Yield` needs an executor, and `CollectAny` needs a child.
def guarded : Body ε α ξ k → Bool
  | yield _               => false
  | collectAny n _ _ _ _ _ => n ≠ 0
  | _                     => true

end Body

-- The coroutine is started by `SyncAwait`, or `Start`, without an executor.
structure Setup.Unbound (m : Setup ε α ξ θ χ) : Prop where
  executor_  : m.executor_ = none
  reschedule : m.reschedule = false
  program    : m.program.Unbound

def Cell.guarded : Cell ε α ξ θ χ → Bool
  | lazy f =>
    match f.stage with
    | .running body => body.guarded
    | _             => true
  | _ => true

namespace Config

def guardedNode (s : Config ε α ξ θ χ) : Node → Bool
  | .coro c => s.cells[c]?.all Cell.guarded
  | _       => true

-- The coroutine that takes the step is neither at a `Yield`, nor at a `CollectAny` over an empty vector.
def guarded (s : Config ε α ξ θ χ) : Action ε α θ → Bool
  | .run _ _  => true
  | .step i _ => s.tokens[i]?.all fun tok => s.guardedNode tok.node

end Config

def Guarded (s : Config ε α ξ θ χ) (a : Action ε α θ) : Prop :=
  s.guarded a

instance (s : Config ε α ξ θ χ) (a : Action ε α θ) : Decidable (Guarded s a) :=
  inferInstanceAs (Decidable (_ = true))

end Lazy
end AsyncSimple
