import AsyncSimple.Coro.CollectAll
import AsyncSimple.Coro.CollectAny

open Transition

namespace AsyncSimple

-- An executor, as far as coroutines use it, with threads `θ` and contexts `χ`. A function that is
-- given to `Schedule` is called on a thread of the executor. One that is given to `Checkin` is called
-- at once, if `prompt` holds, and else on a thread that the context `admits`.
structure Executor (θ χ : Type) where
  currentThreadInExecutor : θ → Bool
  checkout                : θ → χ
  prompt                  : θ → χ → Bool
  admits                  : χ → θ → Bool
  prompt_in               : ∀ t c, prompt t c → currentThreadInExecutor t
  admits_in               : ∀ c t, admits c t → currentThreadInExecutor t

namespace Lazy

-- A coroutine returns a `Lazy<T>` or a `Lazy<void>`.
inductive Kind
  | value
  | void
  deriving DecidableEq, Repr

-- What `await_suspend` of an external awaiter returns.
inductive SuspendType
  | void
  | bool
  | handle
  deriving DecidableEq, Repr

-- What is left of the body of a coroutine. As exceptions of a `co_await` can be caught, a body goes on
-- with a `Try` after it, which contains `none` as the value of a `Lazy<void>`. Children are awaited as
-- objects of type `Lazy`, or of type `RescheduleLazy` (`awaitVia`, `reschedule`), and the executors of
-- the children of a vector are those that they are bound to before.
inductive Body (ε α ξ : Type) : Kind → Type
  | coReturn (v : α) : Body ε α ξ .value
  | coReturnVoid : Body ε α ξ .void
  | throw (x : Exception ε) : Body ε α ξ k
  | currentExecutor (f : Option ξ → Body ε α ξ k) : Body ε α ξ k
  | yield (body : Body ε α ξ k) : Body ε α ξ k
  | schedule (executor : ξ) (body : Body ε α ξ k) : Body ε α ξ k
  | scheduleAfter (executor : ξ) (body : Body ε α ξ k) : Body ε α ξ k
  | await (child : Body ε α ξ k') (f : Try ε (Option α) → Body ε α ξ k) : Body ε α ξ k
  | awaitVia (executor : Option ξ) (child : Body ε α ξ k') (f : Try ε (Option α) → Body ε α ξ k) :
    Body ε α ξ k
  | awaitExternal (type : SuspendType) (f : Try ε (Option α) → Body ε α ξ k) : Body ε α ξ k
  | collectAll (n : Nat) (para reschedule : Bool) (executors : Fin n → Option ξ)
    (children : Fin n → Body ε α ξ k') (f : List (Try ε (Option α)) → Body ε α ξ k) : Body ε α ξ k
  | collectAny (n : Nat) (kind : Kind) (reschedule : Bool) (executors : Fin n → Option ξ)
    (children : Fin n → Body ε α ξ kind) (f : CollectAnyResult ε (Option α) → Body ε α ξ k) :
    Body ε α ξ k

-- The union of `LazyPromise<T>`, together with `result_type_`.
inductive Result (ε α : Type)
  | kEmpty
  | kValue     (value_ : α)
  | kException (exception_ : Exception ε)
  deriving DecidableEq, Repr

-- What a promise keeps of the outcome of its coroutine.
inductive Slot (ε α : Type) : Kind → Type
  | value (result : Result ε α) : Slot ε α .value
  | void (exception_ : Option (Exception ε)) : Slot ε α .void

namespace Slot

variable {ε α : Type}

def empty : (k : Kind) → Slot ε α k
  | .value => .value .kEmpty
  | .void  => .void none

-- `unhandled_exception`
def unhandledException (x : Exception ε) : {k : Kind} → Slot ε α k → Slot ε α k
  | .value, .value _ => .value (.kException x)
  | .void,  .void _  => .void (some x)

-- `TryResult`, and `Result` with the exception that it throws, unless their assertion fails.
def tryResult : Slot ε α k → Option (Try ε (Option α))
  | .value (.kException x) => some (.exception x)
  | .value (.kValue v)     => some (.value (some v))
  | .value .kEmpty         => none
  | .void (some x)         => some (.exception x)
  | .void none             => some (.value none)

end Slot

-- Where a coroutine is: suspended on `Yield` or `Schedule`, on the coroutine of a `Lazy` or
-- `RescheduleLazy`, on an external awaiter, or on the awaiter of a vector of children.
inductive Stage (ε α ξ : Type) (k : Kind)
  | initial    (body : Body ε α ξ k)
  | running    (body : Body ε α ξ k)
  | suspended  (body : Body ε α ξ k)
  | awaiting   (child : Nat) (f : Try ε (Option α) → Body ε α ξ k)
  | external   (f : Try ε (Option α) → Body ε α ξ k)
  | collectAll (awaiter : Nat) (f : List (Try ε (Option α)) → Body ε α ξ k)
  | collectAny (awaiter : Nat) (f : CollectAnyResult ε (Option α) → Body ε α ξ k)
  | final

-- A coroutine with its promise, where `thread` is a record of the thread that it was started on, or
-- has been resumed on since.
structure Frame (ε α ξ θ : Type) (k : Kind) where
  executor_     : Option ξ
  continuation_ : Option Nat
  result        : Slot ε α k
  stage         : Stage ε α ξ k
  thread        : Option θ

-- What the function that is given to `Start` does with the result: it is a callback of a vector of
-- children, or the one of the caller.
inductive Callback
  | caller
  | child (awaiter j : Nat)
  deriving DecidableEq, Repr

-- The coroutines and the awaiters of vectors of children are given by their numbers in the order of
-- their creation. The coroutine of `ViaCoroutine` keeps its executor together with the context that
-- is checked out from it, and the coroutine that `Start` launches awaits its child.
inductive Cell (ε α ξ θ χ : Type)
  | lazy {k : Kind} (frame : Frame ε α ξ θ k)
  | via (context : Option (ξ × χ)) (continuation : Nat) (resumed : Bool)
  | launch (reschedule : Bool) (child : Nat) (callback : Callback) (awaiting : Bool)
  | collectAll {n : Nat} {k : Kind} (reschedule : Bool) (children : Fin n → Body ε α ξ k)
    (setup : CollectAllAwaiter.Setup n Nat ξ) (state : CollectAllAwaiter.Config n ε (Option α) Nat ξ)
  | collectAny {n : Nat} {k : Kind} (reschedule : Bool) (children : Fin n → Body ε α ξ k)
    (setup : CollectAnyAwaiter.Setup n Nat ξ) (state : CollectAnyAwaiter.Config n ε (Option α) Nat ξ)
  | destroyed

-- Code that is to be run: a coroutine is resumed, or `await_suspend` of the awaiter of a vector goes
-- on, or the callback of one of its children, or the function that starts this child.
inductive Node
  | coro    (id : Nat)
  | starter (awaiter : Nat)
  | child   (awaiter j : Nat)
  deriving DecidableEq, Repr

-- Code is running on a thread, waits in an executor, or for an external awaiter to resume it.
inductive Place (ξ θ χ : Type)
  | running  (thread : θ)
  | queued   (executor : ξ) (context : Option χ)
  | external

structure Token (ξ θ χ : Type) where
  place : Place ξ θ χ
  node  : Node

-- What must not happen: the assertion of a result slot or of `CollectAny` fails, a null executor is
-- used, or a null coroutine is resumed.
inductive Fault
  | assertFailed
  | nullExecutor
  | nullContinuation
  deriving DecidableEq, Repr

-- In `refused` is a record of what the executors were asked to run, and have refused to.
structure Config (ε α ξ θ χ : Type) where
  cells     : List (Cell ε α ξ θ χ)
  tokens    : List (Token ξ θ χ)
  delivered : List (Try ε (Option α))
  refused   : List Node
  fault     : Option Fault

-- What an external awaiter does: it is ready, it suspends, its `await_suspend` returns false, or throws.
inductive Outcome (ε : Type)
  | ready
  | suspended
  | notSuspended
  | thrown (x : Exception ε)

-- What a step does not determine: whether an executor accepts a function, and what external awaiters
-- do and return.
structure Env (ε α : Type) where
  accept  : Bool
  outcome : Outcome ε
  result  : Try ε (Option α)

inductive Action (ε α θ : Type)
  -- An executor, or an external awaiter, runs code on a thread.
  | run  (i : Nat) (thread : θ)
  | step (i : Nat) (env : Env ε α)

-- A coroutine `Lazy`, which may be bound to an executor, is started by `Start`, or `Via` and `Start`.
structure Setup (ε α ξ θ χ : Type) where
  executor   : ξ → Executor θ χ
  kind       : Kind
  program    : Body ε α ξ kind
  reschedule : Bool
  executor_  : Option ξ
  thread     : θ

variable {ε α ξ θ χ : Type}

def Frame.new (body : Body ε α ξ k) (executor_ : Option ξ) (continuation_ : Option Nat)
    (thread : Option θ) : Frame ε α ξ θ k where
  executor_     := executor_
  continuation_ := continuation_
  result        := .empty k
  stage         := .initial body
  thread        := thread

namespace Config

def add (s : Config ε α ξ θ χ) (cell : Cell ε α ξ θ χ) : Config ε α ξ θ χ :=
  { s with cells := s.cells ++ [cell] }

def set (s : Config ε α ξ θ χ) (id : Nat) (cell : Cell ε α ξ θ χ) : Config ε α ξ θ χ :=
  { s with cells := s.cells.set id cell }

def take (s : Config ε α ξ θ χ) (i : Nat) : Config ε α ξ θ χ :=
  { s with tokens := s.tokens.eraseIdx i }

def put (s : Config ε α ξ θ χ) (place : Place ξ θ χ) (node : Node) : Config ε α ξ θ χ :=
  { s with tokens := s.tokens ++ [⟨place, node⟩] }

def fail (s : Config ε α ξ θ χ) (fault : Fault) : Config ε α ξ θ χ :=
  { s with fault := some fault }

-- An executor returns true, if `accept` holds, and false otherwise.
def submit (s : Config ε α ξ θ χ) (executor : ξ) (context : Option χ) (node : Node) (accept : Bool) :
    Config ε α ξ θ χ :=
  if accept then s.put (.queued executor context) node else { s with refused := s.refused ++ [node] }

-- `executor->Schedule`, where nothing looks at what it returns.
def schedule (s : Config ε α ξ θ χ) (executor : Option ξ) (node : Node) (accept : Bool) :
    Config ε α ξ θ χ :=
  match executor with
  | none          => s.fail .nullExecutor
  | some executor => s.submit executor none node accept

-- A coroutine that runs on thread `t` reaches the stage.
def enter (s : Config ε α ξ θ χ) (t : θ) (c : Nat) (f : Frame ε α ξ θ k) (stage : Stage ε α ξ k) :
    Config ε α ξ θ χ :=
  s.set c (.lazy { f with stage, thread := some t })

def proceed (s : Config ε α ξ θ χ) (t : θ) (c : Nat) (f : Frame ε α ξ θ k) (body : Body ε α ξ k) :
    Config ε α ξ θ χ :=
  (s.enter t c f (.running body)).put (.running t) (.coro c)

-- `FinalAwaiter` transfers control to the continuation.
def finalSuspend (s : Config ε α ξ θ χ) (t : θ) (c : Nat) (f : Frame ε α ξ θ k) (result : Slot ε α k) :
    Config ε α ξ θ χ :=
  match f.continuation_ with
  | none   => s.fail .nullContinuation
  | some h => (s.enter t c { f with result } .final).put (.running t) (.coro h)

-- The result that `AwaitResume` and `AwaitResumeTry` get, before they destroy the coroutine.
def result (s : Config ε α ξ θ χ) (child : Nat) : Option (Option (Try ε (Option α))) :=
  match s.cells[child]? with
  | some (.lazy f) => some f.result.tryResult
  | _              => none

def destroy (s : Config ε α ξ θ χ) (c : Nat) : Config ε α ξ θ χ :=
  s.set c .destroyed

-- `Start` moves a child into the coroutine that it launches.
def start (s : Config ε α ξ θ χ) (t : θ) (reschedule : Bool) (child : Body ε α ξ k)
    (executor_ : Option ξ) (callback : Callback) : Config ε α ξ θ χ :=
  let launch := s.cells.length
  ((s.add (.launch reschedule (launch + 1) callback false)).add
    (.lazy (.new child executor_ none none))).put (.running t) (.coro launch)

end Config

namespace Setup

-- Whether an executor may call a function on this thread.
def admits (m : Setup ε α ξ θ χ) (executor : ξ) : Option χ → θ → Bool
  | none,         t => (m.executor executor).currentThreadInExecutor t
  | some context, t => (m.executor executor).admits context t

-- `ViaCoroutine::Create` and `GetWrappedContinuation`
def via (m : Setup ε α ξ θ χ) (executor_ : Option ξ) (t : θ) (continuation : Nat) : Cell ε α ξ θ χ :=
  .via (executor_.map fun e => (e, (m.executor e).checkout t)) continuation false

-- The awaiter of a vector gets the coroutine as its continuation, or a `ViaCoroutine` with it.
def wrap (m : Setup ε α ξ θ χ) (s : Config ε α ξ θ χ) (reschedule : Bool) (executor_ : Option ξ) (t : θ)
    (continuation : Nat) : Config ε α ξ θ χ × Nat :=
  if reschedule then
    (s.add (m.via executor_ t continuation), s.cells.length)
  else
    (s, continuation)

-- The coroutine `c` runs up to its next suspension point.
def exec (m : Setup ε α ξ θ χ) (s : Config ε α ξ θ χ) (t : θ) (c : Nat) (env : Env ε α)
    (f : Frame ε α ξ θ k) (body : Body ε α ξ k) : Option (Config ε α ξ θ χ) :=
  match k, f, body with
  | _, f, .coReturn v        => s.finalSuspend t c f (.value (.kValue v))
  | _, f, .coReturnVoid      => s.finalSuspend t c f f.result
  | _, f, .throw x           => s.finalSuspend t c f (f.result.unhandledException x)
  | _, f, .currentExecutor g => s.proceed t c f (g f.executor_)
  | _, f, .yield body        =>
    (s.enter t c f (.suspended body)).schedule f.executor_ (.coro c) env.accept
  | _, f, .schedule e body   =>
    if (m.executor e).currentThreadInExecutor t then
      s.proceed t c f body
    else
      (s.enter t c f (.suspended body)).submit e none (.coro c) env.accept
  | _, f, .scheduleAfter e body =>
    (s.enter t c f (.suspended body)).submit e none (.coro c) env.accept
  | _, f, .await child g =>
    let id := s.cells.length
    ((s.add (.lazy (.new child f.executor_ (some c) (some t)))).enter t c f (.awaiting id g)).put
      (.running t) (.coro id)
  | _, f, .awaitVia executor child g =>
    let via := s.cells.length
    let id  := via + 1
    (((s.add (m.via f.executor_ t c)).add (.lazy (.new child executor (some via) none))).enter t c f
      (.awaiting id g)).schedule executor (.coro id) env.accept
  | _, f, .awaitExternal type g =>
    match env.outcome with
    | .ready     => s.proceed t c f (g env.result)
    | .suspended =>
      let via := s.cells.length
      ((s.add (m.via f.executor_ t c)).enter t c f (.external g)).put .external (.coro via)
    -- What is checked in then is a function that does nothing.
    | .notSuspended => if type = .bool then s.proceed t c f (g env.result) else none
    | .thrown x     => s.proceed t c f (g (.exception x))
  | _, f, .collectAll n para reschedule executors children g =>
    if n = 0 then
      s.proceed t c f (g [])
    else
      let (s, continuation) := m.wrap s reschedule f.executor_ t c
      let awaiter           := s.cells.length
      let setup             := ⟨para, f.executor_, executors, continuation⟩
      ((s.add (.collectAll reschedule children setup setup.init)).enter t c f (.collectAll awaiter g)).put
        (.running t) (.starter awaiter)
  | _, f, .collectAny n kind reschedule executors children g =>
    if n = 0 then
      s.fail .assertFailed
    else
      let (s, continuation) := m.wrap s reschedule f.executor_ t c
      let awaiter           := s.cells.length
      let setup             := ⟨kind = .void, f.executor_, executors, continuation⟩
      ((s.add (.collectAny reschedule children setup setup.init)).enter t c f (.collectAny awaiter g)).put
        (.running t) (.starter awaiter)

def stepLazy (m : Setup ε α ξ θ χ) (s : Config ε α ξ θ χ) (t : θ) (c : Nat) (env : Env ε α)
    (f : Frame ε α ξ θ k) : Option (Config ε α ξ θ χ) :=
  match f.stage with
  | .initial body | .suspended body => s.proceed t c f body
  | .running body                   => m.exec s t c env f body
  | .awaiting child g               =>
    match s.result child with
    | some (some r) => (s.proceed t c f (g r)).destroy child
    | some none     => s.fail .assertFailed
    | none          => none
  | .external g           => s.proceed t c f (g env.result)
  | .collectAll awaiter g =>
    match s.cells[awaiter]? with
    | some (.collectAll _ _ _ state) => s.proceed t c f (g state.output)
    | _                              => none
  | .collectAny awaiter g =>
    match s.cells[awaiter]? with
    | some (.collectAny reschedule children setup state) =>
      match setup.awaitResume state with
      | none       => s.fail .assertFailed
      | some state =>
        state.received.map fun r =>
          (s.set awaiter (.collectAny reschedule children setup state)).proceed t c f (g r)
    | _ => none
  | .final => none

-- `FinalAwaiter` of a `ViaCoroutine`, where nothing looks at what `Checkin` returns.
def stepVia (m : Setup ε α ξ θ χ) (s : Config ε α ξ θ χ) (t : θ) (env : Env ε α)
    (context : Option (ξ × χ)) (continuation : Nat) : Config ε α ξ θ χ :=
  match context with
  | none                     => s.put (.running t) (.coro continuation)
  | some (executor, context) =>
    if (m.executor executor).prompt t context then
      s.put (.running t) (.coro continuation)
    else
      s.submit executor (some context) (.coro continuation) env.accept

-- The callback of a child gets its result.
def callback (s : Config ε α ξ θ χ) (t : θ) (r : Try ε (Option α)) :
    Callback → Option (Config ε α ξ θ χ)
  | .caller          => some { s with delivered := s.delivered ++ [r] }
  | .child awaiter j =>
    match s.cells[awaiter]? with
    | some (.collectAll (n := n) reschedule children setup state) =>
      if h : j < n then
        (CollectAllAwaiter.Setup.complete state ⟨j, h⟩ r).map fun state =>
          (s.set awaiter (.collectAll reschedule children setup state)).put (.running t) (.child awaiter j)
      else
        none
    | some (.collectAny (n := n) reschedule children setup state) =>
      if h : j < n then
        (CollectAnyAwaiter.Setup.complete state ⟨j, h⟩ r).map fun state =>
          (s.set awaiter (.collectAny reschedule children setup state)).put (.running t) (.child awaiter j)
      else
        none
    | _ => none

-- The coroutine that `Start` has launched awaits its child by `CoAwaitTry`, and calls the callback.
def stepLaunch (s : Config ε α ξ θ χ) (t : θ) (l : Nat) (env : Env ε α) (reschedule : Bool) (child : Nat)
    (callback : Callback) (awaiting : Bool) : Option (Config ε α ξ θ χ) :=
  if awaiting then
    match s.result child with
    | some (some r) => (Setup.callback s t r callback).map fun s => (s.destroy l).destroy child
    | some none     => s.fail .assertFailed
    | none          => none
  else
    match s.cells[child]? with
    | some (.lazy f) =>
      let s := s.set l (.launch reschedule child callback true)
      if reschedule then
        (s.set child (.lazy { f with continuation_ := some l })).schedule f.executor_ (.coro child) env.accept
      else
        (s.set child (.lazy { f with continuation_ := some l, thread := some t })).put
          (.running t) (.coro child)
    | _ => none

def stepCoro (m : Setup ε α ξ θ χ) (s : Config ε α ξ θ χ) (t : θ) (c : Nat) (env : Env ε α) :
    Option (Config ε α ξ θ χ) :=
  match s.cells[c]? with
  | some (.lazy f)                           => m.stepLazy s t c env f
  | some (.via context continuation resumed) =>
    if resumed then
      none
    else
      m.stepVia (s.set c (.via context continuation true)) t env context continuation
  | some (.launch reschedule child callback awaiting) =>
    stepLaunch s t c env reschedule child callback awaiting
  | _ => none

-- The next step of `await_suspend`, which launches children, and may resume the coroutine at its end.
def stepStarter (s : Config ε α ξ θ χ) (t : θ) (q : Nat) (env : Env ε α) : Option (Config ε α ξ θ χ) :=
  match s.cells[q]? with
  | some (.collectAll reschedule children setup state) =>
    (setup.stepStarter state).map fun state' =>
      let s := s.set q (.collectAll reschedule children setup state')
      match state.starter, state'.starter with
      | .launch j, _ =>
        let s := s.put (.running t) (.starter q)
        match state'.child j with
        | .queued => s.schedule setup.executor (.child q j) env.accept
        | _       => s.start t reschedule (children j) (state'.input j) (.child q j)
      | .finish (.resume h), _ => s.put (.running t) (.coro h)
      | _, .finish .done       => s
      | _, _                   => s.put (.running t) (.starter q)
  | some (.collectAny reschedule children setup state) =>
    (setup.stepStarter state).map fun state' =>
      let s := s.set q (.collectAny reschedule children setup state')
      match state.starter, state'.starter with
      | .start j, _ =>
        (s.put (.running t) (.starter q)).start t reschedule (children j) (state'.in_.bind (· j)) (.child q j)
      | _, .returned => s
      | _, _         => s.put (.running t) (.starter q)
  | _ => none

-- The next step of a child: the function that starts it, or its callback, which may resume the
-- coroutine at its end.
def stepChild (s : Config ε α ξ θ χ) (t : θ) (q j : Nat) : Option (Config ε α ξ θ χ) :=
  match s.cells[q]? with
  | some (.collectAll (n := n) reschedule children setup state) =>
    if h : j < n then
      match state.child ⟨j, h⟩ with
      | .queued =>
        (CollectAllAwaiter.Setup.runTask state ⟨j, h⟩).map fun state =>
          (s.set q (.collectAll reschedule children setup state)).start t reschedule (children ⟨j, h⟩)
            (state.input ⟨j, h⟩) (.child q j)
      | pc =>
        (CollectAllAwaiter.Setup.stepChild state ⟨j, h⟩).map fun state =>
          let s := s.set q (.collectAll reschedule children setup state)
          match pc, state.child ⟨j, h⟩ with
          | .finish (.resume h), _ => s.put (.running t) (.coro h)
          | _, .finish .done       => s
          | _, _                   => s.put (.running t) (.child q j)
    else
      none
  | some (.collectAny (n := n) reschedule children setup state) =>
    if h : j < n then
      (setup.stepChild state ⟨j, h⟩).map fun state' =>
        let s := s.set q (.collectAny reschedule children setup state')
        match state.child ⟨j, h⟩, state'.child ⟨j, h⟩ with
        | .resume, _   => s.put (.running t) (.coro setup.continuation)
        | _, .finished => s
        | _, _         => s.put (.running t) (.child q j)
    else
      none
  | _ => none

def stepNode (m : Setup ε α ξ θ χ) (s : Config ε α ξ θ χ) (t : θ) (env : Env ε α) :
    Node → Option (Config ε α ξ θ χ)
  | .coro c    => m.stepCoro s t c env
  | .starter q => stepStarter s t q env
  | .child q j => stepChild s t q j

def step (m : Setup ε α ξ θ χ) (s : Config ε α ξ θ χ) : Action ε α θ → Option (Config ε α ξ θ χ)
  | .run i t =>
    match s.tokens[i]? with
    | some ⟨.queued executor context, node⟩ =>
      if m.admits executor context t then (s.take i).put (.running t) node else none
    | some ⟨.external, node⟩ => (s.take i).put (.running t) node
    | _                      => none
  | .step i env =>
    match s.tokens[i]? with
    | some ⟨.running t, node⟩ =>
      -- A step that fails leaves everything as it is.
      (m.stepNode (s.take i) t env node).map fun s' =>
        match s'.fault with
        | none       => s'
        | some fault => s.fail fault
    | _ => none

def init (m : Setup ε α ξ θ χ) : Config ε α ξ θ χ where
  cells     := [.launch m.reschedule 1 .caller false, .lazy (.new m.program m.executor_ none none)]
  tokens    := [⟨.running m.thread, .coro 0⟩]
  delivered := []
  refused   := []
  fault     := none

def system (m : Setup ε α ξ θ χ) : System (Config ε α ξ θ χ) (Action ε α θ) where
  init := m.init
  step s a := if s.fault = none then m.step s a else none

end Setup
end Lazy
end AsyncSimple
