import AsyncSimple.Coro.Lazy
import Mathlib.Logic.Function.Basic

open Transition

namespace AsyncSimple

-- The executor and the context in the promise.
structure ViaCoroutine (ξ χ : Type) where
  executor : Option ξ
  context  : χ
  deriving DecidableEq, Repr

namespace ViaCoroutine

inductive Method
  | checkout
  | checkin
  deriving DecidableEq, Repr

-- A call of an executor for an await of a coroutine, with the context that `Checkout` returns, or that
-- `Checkin` is given.
structure Call (ξ χ : Type) where
  method    : Method
  executor  : ξ
  coroutine : Nat
  await     : Nat
  context   : χ
  deriving DecidableEq, Repr

variable {ξ χ : Type}

def Call.made [DecidableEq ξ] (c : Call ξ χ) (method : Method) (e : ξ) (i : Nat) : Option (Nat × χ) :=
  if c.method = method ∧ c.executor = e ∧ c.coroutine = i then some (c.await, c.context) else none

def create (kNullContext : χ) (executor : Option ξ) : ViaCoroutine ξ χ where
  executor := executor
  context  := kNullContext

-- The call for await `k` of coroutine `i` in `Checkin`, which hands over a function that does nothing, and
-- in `FinalAwaiter`, which hands over the continuation.
def checkin (v : ViaCoroutine ξ χ) (i k : Nat) : List (Call ξ χ) :=
  match v.executor with
  | none          => []
  | some executor => [⟨.checkin, executor, i, k, v.context⟩]

-- `Checkout` returns the context.
def getWrappedContinuation (v : ViaCoroutine ξ χ) (i k : Nat) (context : χ) :
    ViaCoroutine ξ χ × List (Call ξ χ) :=
  match v.executor with
  | none          => (v, [])
  | some executor => ({ v with context }, [⟨.checkout, executor, i, k, context⟩])

end ViaCoroutine

namespace ViaAsyncAwaiter

open Lazy (SuspendType)
open ViaCoroutine (Call Method)

-- Where a coroutine is: its own code is running, or `await_ready` or `await_suspend` of an awaiter that
-- has not resumed the coroutine of `ViaCoroutine`, or it is suspended until the awaiter does that. The
-- executor may then accept the continuation, or refuse it.
inductive Stage (ξ χ : Type)
  | running
  | ready      (type : SuspendType) (via : ViaCoroutine ξ χ)
  | suspending (type : SuspendType) (via : ViaCoroutine ξ χ)
  | suspended  (via : ViaCoroutine ξ χ)
  | queued
  | refused
  deriving DecidableEq, Repr

-- A coroutine with the number of its awaits. No step reads the last field, which counts how often
-- `await_suspend` of its awaiters has thrown.
structure Coroutine (ξ χ : Type) where
  stage  : Stage ξ χ
  awaits : Nat
  thrown : Nat

-- What happens to a coroutine. Its own code runs at any time while it is not in an await, so that it may
-- await anything next, whether the last await has returned a result or has thrown an exception.
inductive Event (χ : Type)
  -- `co_await` of an awaiter whose `await_suspend` returns nothing, a `bool` or a handle.
  | await (type : SuspendType)
  -- `await_ready` returns true, throws, or returns false, where `context` is what `Checkout` returns.
  | ready
  | readyThrows
  | notReady (context : χ)
  -- `await_suspend` returns nothing, true or a handle, or returns false, or throws. Once the awaiter has
  -- resumed the coroutine of `ViaCoroutine`, `await_suspend` can only return, without any effect.
  | suspended
  | notSuspended
  | suspendThrows
  -- The awaiter resumes the coroutine of `ViaCoroutine`, and the executor accepts its continuation or not.
  | resume (accept : Bool)
  -- The executor runs the continuation.
  | runTask

-- The executors that the coroutines of a program are bound to.
structure Setup (ξ χ : Type) where
  executor     : Nat → Option ξ
  kNullContext : χ

-- The calls of the executors in their order.
structure Config (ξ χ : Type) where
  coroutines : Nat → Coroutine ξ χ
  calls      : List (Call ξ χ)

variable {ξ χ : Type}

-- `FinalAwaiter` of the `ViaCoroutine` of the current await.
def Coroutine.finalAwaiter (c : Coroutine ξ χ) (i : Nat) (via : ViaCoroutine ξ χ) (accept : Bool) :
    Coroutine ξ χ × List (Call ξ χ) :=
  match via.executor with
  | none   => ({ c with stage := .running }, [])
  | some _ => ({ c with stage := if accept then .queued else .refused }, via.checkin i c.awaits)

namespace Setup

-- The step of coroutine `i`, with the calls that it makes.
def stepCoroutine (m : Setup ξ χ) (i : Nat) (c : Coroutine ξ χ) :
    Event χ → Option (Coroutine ξ χ × List (Call ξ χ))
  | .await type =>
    match c.stage with
    | .running =>
      some ({ c with stage := .ready type (.create m.kNullContext (m.executor i)), awaits := c.awaits + 1 }, [])
    | _ => none
  | .ready | .readyThrows =>
    match c.stage with
    | .ready _ _ => some ({ c with stage := .running }, [])
    | _          => none
  | .notReady context =>
    match c.stage with
    | .ready type via =>
      let (via, calls) := via.getWrappedContinuation i c.awaits context
      some ({ c with stage := .suspending type via }, calls)
    | _ => none
  | .suspended =>
    match c.stage with
    | .suspending _ via => some ({ c with stage := .suspended via }, [])
    | _                 => none
  | .notSuspended =>
    match c.stage with
    | .suspending .bool via => some ({ c with stage := .running }, via.checkin i c.awaits)
    | _                     => none
  | .suspendThrows =>
    match c.stage with
    | .suspending _ _ => some ({ c with stage := .running, thrown := c.thrown + 1 }, [])
    | _               => none
  | .resume accept =>
    match c.stage with
    | .suspending _ via | .suspended via => some (c.finalAwaiter i via accept)
    | _                                  => none
  | .runTask =>
    match c.stage with
    | .queued => some ({ c with stage := .running }, [])
    | _       => none

def system (m : Setup ξ χ) : System (Config ξ χ) (Nat × Event χ) where
  init := ⟨fun _ => ⟨.running, 0, 0⟩, []⟩
  step s a :=
    (m.stepCoroutine a.1 (s.coroutines a.1) a.2).map fun r =>
      ⟨Function.update s.coroutines a.1 r.1, s.calls ++ r.2⟩

end Setup

namespace Config

-- The awaits and contexts of the calls that are made of executor `e` for coroutine `i`.
def made [DecidableEq ξ] (s : Config ξ χ) (method : Method) (e : ξ) (i : Nat) : List (Nat × χ) :=
  s.calls.filterMap (·.made method e i)

-- There are as many calls of `Checkin` as of `Checkout`, and each is for an await with the context that
-- `Checkout` has returned for it.
structure Balanced [DecidableEq ξ] (s : Config ξ χ) (e : ξ) (i : Nat) : Prop where
  count   : (s.made .checkin e i).length = (s.made .checkout e i).length
  context : ∀ k c, (k, c) ∈ s.made .checkin e i → (k, c) ∈ s.made .checkout e i

end Config
end ViaAsyncAwaiter
end AsyncSimple
