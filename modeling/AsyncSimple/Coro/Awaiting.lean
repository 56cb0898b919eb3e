import AsyncSimple.Coro.Lazy

open Transition

namespace AsyncSimple
namespace Lazy

variable {ε α : Type}

namespace Kind

-- What a coroutine of this kind returns.
def Value (α : Type) : Kind → Type
  | value => α
  | void  => Unit

def toOption : {k : Kind} → k.Value α → Option α
  | value, v => some v
  | void,  _ => none

-- A new `Try<T>` contains nothing, whereas there is always a result in a `Try<void>`.
def newTry : Kind → Try ε (Option α)
  | value => .nothing
  | void  => .value none

-- What `MakeWrapperTask` does with the outcome of `co_await awaitable`.
def assign (k : Kind) (result : Try ε (Option α)) : Except (Exception ε) (Option α) → Try ε (Option α)
  | .error x => .exception x
  | .ok v    =>
    match k with
    | value => .value v
    | void  => result

end Kind

-- `return_value`, `return_void` or `unhandled_exception`
def Slot.finish : {k : Kind} → Slot ε α k → Except (Exception ε) (k.Value α) → Slot ε α k
  | _,      slot, .error x => slot.unhandledException x
  | .value, _,    .ok v    => .value (.kValue v)
  | .void,  slot, .ok _    => slot

end Lazy

namespace Awaiting

open Lazy (Kind Slot)

-- A `Lazy` with the executor that it is bound to, where `body` gives its outcome, which may depend on
-- what `co_await CurrentExecutor{}` yields.
structure Child (ε α ξ : Type) where
  kind      : Kind
  executor_ : Option ξ
  body      : Option ξ → Except (Exception ε) (kind.Value α)

-- The coroutine of a child is suspended initially. Once it is running it may do so for any time, both
-- before it gets the current executor and after that.
inductive Phase (ε α ξ : Type) (k : Kind)
  | initial
  | running
  | looked (executor : Option ξ)
  | final  (result : Slot ε α k)
  | destroyed

-- How a coroutine awaits its children: by `CollectAll` over a vector, which awaits the children themselves,
-- by the variadic `CollectAll`, which awaits wrapper tasks, or by a `co_await` in `try` for each of them,
-- where the result is kept as in `MakeWrapperTask`.
inductive Way
  | vector
  | variadic
  | oneByOne
  deriving DecidableEq, Repr

-- The executor of the coroutine, which is also that of the coroutines of `CollectAll`, as it awaits them. If
-- `para` holds, then `CollectAllPara` is called.
structure Setup (n : Nat) (ε α ξ : Type) where
  executor : Option ξ
  para     : Bool
  child    : Fin n → Child ε α ξ

variable {n : Nat} {ε α ξ : Type}

-- The executors and the phases of the promises of the children, the awaiter of the children or of the wrapper
-- tasks, the number of the child that is awaited next, and the results that are assigned by the wrapper
-- tasks or the coroutine. No step reads the last field, which is a record of the executors that the children
-- have seen.
structure Config (m : Setup n ε α ξ) where
  executor_ : Fin n → Option ξ
  phase     : (i : Fin n) → Phase ε α ξ (m.child i).kind
  awaiter   : CollectAllAwaiter.Config n ε (Option α) Unit ξ
  next      : Nat
  results   : Fin n → Try ε (Option α)
  seen      : Fin n → Option (Option ξ)

inductive Action (n : Nat)
  -- The next step of `await_suspend`, of the executor, or of the callback of a child or wrapper task.
  | starter
  | runTask  (i : Fin n)
  | callback (i : Fin n)
  -- A child is awaited, gets the current executor, comes to its end, and its continuation is resumed.
  | await  (i : Fin n)
  | look   (i : Fin n)
  | finish (i : Fin n)
  | resume (i : Fin n)

namespace Config

variable {m : Setup n ε α ξ}

def setPhase (s : Config m) (i : Fin n) (phase : Phase ε α ξ (m.child i).kind) : Config m :=
  { s with phase := Function.update s.phase i phase }

-- The coroutine of a child is started, where `CoAwait` has assigned the executor before.
def start (s : Config m) (i : Fin n) (executor_ : Option ξ) : Config m :=
  { s with executor_ := Function.update s.executor_ i executor_ }.setPhase i .running

end Config

namespace Setup

-- A wrapper task is bound to no executor.
def awaiter (m : Setup n ε α ξ) (w : Way) : CollectAllAwaiter.Setup n Unit ξ where
  para         := m.para
  executor     := m.executor
  input i      := match w with | .vector => (m.child i).executor_ | _ => none
  continuation := ()

def init (m : Setup n ε α ξ) (w : Way) : Config m where
  executor_ i := (m.child i).executor_
  phase _     := .initial
  awaiter     := (m.awaiter w).init
  next        := 0
  results i   := (m.child i).kind.newTry
  seen _      := none

-- The executors that the awaiter assigns are those of the children, or of the wrapper tasks.
def stepAwaiter (m : Setup n ε α ξ) (w : Way) (s : Config m) (a : CollectAllAwaiter.Action n ε (Option α)) :
    Option (Config m) :=
  match w with
  | .vector   =>
    ((m.awaiter w).system.step s.awaiter a).map fun awaiter => { s with awaiter, executor_ := awaiter.input }
  | .variadic => ((m.awaiter w).system.step s.awaiter a).map fun awaiter => { s with awaiter }
  | .oneByOne => none

-- `CoAwaitTry` in the coroutine that `Start` launches, or `CoAwait` in a wrapper task or in the coroutine.
def await (m : Setup n ε α ξ) (w : Way) (s : Config m) (i : Fin n) : Option (Config m) :=
  match s.phase i, w, s.awaiter.child i with
  | .initial, .vector,   .running => s.start i (s.executor_ i)
  | .initial, .variadic, .running => s.start i (s.awaiter.input i)
  | .initial, .oneByOne, _        => if s.next = i then s.start i m.executor else none
  | _,        _,         _        => none

def look {m : Setup n ε α ξ} (s : Config m) (i : Fin n) : Option (Config m) :=
  match s.phase i with
  | .running =>
    some ({ s with seen := Function.update s.seen i (some (s.executor_ i)) }.setPhase i (.looked (s.executor_ i)))
  | _ => none

def finish {m : Setup n ε α ξ} (s : Config m) (i : Fin n) : Option (Config m) :=
  match s.phase i with
  | .looked executor => s.setPhase i (.final ((Slot.empty _).finish ((m.child i).body executor)))
  | _                => none

-- The awaiter gets the result of a child by `AwaitResumeTry`, or that of a wrapper task, which has got the
-- outcome of the child by `AwaitResume`. Nothing happens after a failed assertion.
def resume (m : Setup n ε α ξ) (w : Way) (s : Config m) (i : Fin n) : Option (Config m) :=
  match s.phase i with
  | .final result =>
    result.tryResult.bind fun t =>
      let s := s.setPhase i .destroyed
      let assigned : Config m :=
        { s with results := Function.update s.results i ((m.child i).kind.assign (s.results i) t.getValue) }
      match w with
      | .vector   => m.stepAwaiter w s (.complete i t)
      | .variadic => m.stepAwaiter w assigned (.complete i (.value none))
      | .oneByOne => some { assigned with next := i + 1 }
  | _ => none

def step (m : Setup n ε α ξ) (w : Way) (s : Config m) : Action n → Option (Config m)
  | .starter    => m.stepAwaiter w s .starter
  | .runTask i  => m.stepAwaiter w s (.runTask i)
  | .callback i => m.stepAwaiter w s (.child i)
  | .await i    => m.await w s i
  | .look i     => look s i
  | .finish i   => finish s i
  | .resume i   => m.resume w s i

def system (m : Setup n ε α ξ) (w : Way) : System (Config m) (Action n) where
  init := m.init w
  step := m.step w

-- What the coroutine has got once it has awaited all children. It does not suspend if there are none.
def output (m : Setup n ε α ξ) (w : Way) (s : Config m) : Option (List (Try ε (Option α))) :=
  if n = 0 then
    some []
  else
    match w with
    | .vector   => if s.awaiter.resumed = [] then none else s.awaiter.output
    | .variadic => if s.awaiter.resumed = [] then none else List.ofFn s.results
    | .oneByOne => if s.next = n then List.ofFn s.results else none

-- What comes of awaiting the children in one way: after some steps at most they have all been awaited, the
-- results are `ts`, and each child has seen the executor that is given by `seen`.
structure Yields (m : Setup n ε α ξ) (w : Way) (ts : List (Try ε (Option α))) (seen : Fin n → Option ξ) :
    Prop where
  bounded : ∃ k, ∀ j s, (m.system w).Steps j s → j ≤ k
  returns : ∀ s, (m.system w).Reachable s → (m.system w).Quiescent s → (m.output w s).isSome
  output  : ∀ s ts', (m.system w).Reachable s → m.output w s = some ts' → ts' = ts ∧ ∀ i, s.seen i = some (seen i)

-- Whichever way the children are awaited, the results are the same, and each child sees the same executor.
def Agree (m : Setup n ε α ξ) : Prop :=
  ∃ ts seen, ∀ w, m.Yields w ts seen

end Setup
end Awaiting
end AsyncSimple
