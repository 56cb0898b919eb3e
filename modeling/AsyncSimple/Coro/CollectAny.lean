import AsyncSimple.Lib.Transition
import AsyncSimple.Base.Try
import AsyncSimple.Coro.CountEvent
import Mathlib.Data.Fin.Basic
import Mathlib.Logic.Function.Basic

open Transition

namespace AsyncSimple

-- The index `none` is `static_cast<std::size_t>(-1)`.
structure CollectAnyResult (ε α : Type) where
  index : Option Nat
  value : Try ε α
  deriving DecidableEq, Repr

namespace CollectAnyResult

variable {ε α : Type}

def new : CollectAnyResult ε α where
  index := none
  value := .nothing

-- What a move leaves behind. The move constructor of `CollectAnyResult<T>` resets the index, the
-- implicit one of `CollectAnyResult<void>` does not. A `Try` that has been moved from keeps its type,
-- and nothing reads its value.
def moved (isVoid : Bool) (r : CollectAnyResult ε α) : CollectAnyResult ε α :=
  if isVoid then r else { r with index := none }

end CollectAnyResult

namespace CollectAnyAwaiter

-- The next step of the coroutine that awaits the children, or of `await_suspend`, where `ready` is
-- the point after an `await_ready` that has returned true.
inductive StarterPc (n : Nat)
  | awaitReady
  | ready
  | moveInput
  | setResult
  | loop  (i : Nat)
  | bind  (i : Fin n)
  | start (i : Fin n)
  | returned
  deriving DecidableEq, Repr

-- The next step of a child. As it takes its steps independently of the starter, a child that finishes
-- before its `Start` returns is included.
inductive ChildPc (ε α : Type)
  | notStarted
  | running
  | downCount (t : Try ε α)
  | setIndex  (t : Try ε α)
  | setValue  (t : Try ε α)
  | resume
  | finished
  deriving DecidableEq, Repr

structure Setup (n : Nat) (κ ξ : Type) where
  isVoid       : Bool
  executor     : Option ξ
  input        : Fin n → Option ξ
  continuation : κ

-- The first two fields are those of the awaiter: its `input`, of which a move leaves `none`, consists
-- of the executors that the promises of the children are bound to, and `result` is whether the pointer
-- of this name has been set. The next three are the local variables of `await_suspend`, two of which
-- are shared with the callbacks and null in the beginning. In `received` is what `await_resume` has
-- returned. The fields after it are a record of the run, which no step reads: the coroutines that have
-- been resumed and by which child, the children in the order in which they have counted down, and for
-- each write to `res` the child that has made it, whether a step after a resumption has used the
-- awaiter, and the results of the children.
structure Config (n : Nat) (ε α κ ξ : Type) where
  input    : Option (Fin n → Option ξ)
  result   : Bool
  in_     : Option (Fin n → Option ξ)
  res      : Option (CollectAnyResult ε α)
  event    : Option (CountEvent κ)
  starter  : StarterPc n
  child    : Fin n → ChildPc ε α
  received : Option (CollectAnyResult ε α)
  resumed  : List (Fin n × κ)
  downed   : List (Fin n)
  writes   : List (Fin n)
  late     : Bool
  produced : Fin n → Option (Try ε α)

inductive Action (n : Nat) (ε α : Type)
  | starter
  | complete (i : Fin n) (t : Try ε α)
  | child    (i : Fin n)
  -- The awaiting coroutine runs on.
  | awaitResume

variable {n : Nat} {ε α κ ξ : Type}

namespace Config

-- A step of the starter or of a child that reads or writes the awaiter.
def touch (s : Config n ε α κ ξ) : Config n ε α κ ξ :=
  { s with late := s.late || !s.resumed.isEmpty }

def goto (s : Config n ε α κ ξ) (pc : StarterPc n) : Config n ε α κ ξ :=
  { s with starter := pc }

def setChild (s : Config n ε α κ ξ) (i : Fin n) (pc : ChildPc ε α) : Config n ε α κ ξ :=
  { s with child := Function.update s.child i pc }

end Config

namespace Setup

def init (m : Setup n κ ξ) : Config n ε α κ ξ where
  input      := m.input
  result     := false
  in_       := none
  res        := none
  event      := none
  starter    := .awaitReady
  child _    := .notStarted
  received   := none
  resumed    := []
  downed     := []
  writes     := []
  late       := false
  produced _ := none

def awaitReady (s : Config n ε α κ ξ) : Bool :=
  s.input.isNone || n == 0 || (s.result && s.res.any (·.index.isSome))

def stepStarter (m : Setup n κ ξ) (s : Config n ε α κ ξ) : Option (Config n ε α κ ξ) :=
  match s.starter with
  | .awaitReady => if awaitReady s then s.touch.goto .ready else s.touch.goto .moveInput
  | .moveInput  =>
    { s.touch with in_ := s.input, input := none, res := some .new, event := some (.new n) }.goto .setResult
  | .setResult  => { s.touch with result := true }.goto (.loop 0)
  | .loop i     =>
    match s.res with
    | none   => none
    | some r =>
      if h : i < n then
        if r.index = none then s.goto (.bind ⟨i, h⟩) else s.goto .returned
      else
        s.goto .returned
  | .bind i =>
    match s.in_ with
    | none     => none
    | some in_ =>
      let executor := match in_ i with | none => m.executor | executor => executor
      { s with in_ := some (Function.update in_ i executor) }.goto (.start i)
  | .start i => (s.setChild i .running).goto (.loop (i + 1))
  | _        => none

-- The result of a child is never empty: `TryResult` makes it from a value or from an exception.
def complete (s : Config n ε α κ ξ) (i : Fin n) (t : Try ε α) : Option (Config n ε α κ ξ) :=
  match s.child i with
  | .running =>
    if t.available then
      { s with produced := Function.update s.produced i (some t) }.setChild i (.downCount t)
    else
      none
  | _ => none

-- A null `event` fails the assertion of the callback.
def stepChild (m : Setup n κ ξ) (s : Config n ε α κ ξ) (i : Fin n) : Option (Config n ε α κ ξ) :=
  match s.child i with
  | .downCount t =>
    match s.event with
    | none   => none
    | some e =>
      let (count, event) := e.downCount 1
      { s with event := some event, downed := s.downed ++ [i] }.setChild i
        (if count = n + 1 then .setIndex t else .finished)
  | .setIndex t =>
    match s.res with
    | none   => none
    | some r =>
      { s with res := some { r with index := some i.val }, writes := s.writes ++ [i] }.setChild i (.setValue t)
  | .setValue t =>
    match s.res with
    | none   => none
    | some r => { s with res := some { r with value := t }, writes := s.writes ++ [i] }.setChild i .resume
  | .resume => { s with resumed := s.resumed ++ [(i, m.continuation)] }.setChild i .finished
  | _       => none

-- The coroutine is at `await_resume` when it has been resumed, or when it has not been suspended.
def awaitResume (m : Setup n κ ξ) (s : Config n ε α κ ξ) : Option (Config n ε α κ ξ) :=
  if s.received.isNone ∧ (s.starter = .ready ∨ !s.resumed.isEmpty) then
    match s.result, s.res with
    | true, some r => some { s with received := some r, res := some (r.moved m.isVoid) }
    | _,    _      => none
  else
    none

def system (m : Setup n κ ξ) :
    System (Config n ε α κ ξ) (Action n ε α) where
  init := m.init
  step s
    | .starter      => m.stepStarter s
    | .complete i t => complete s i t
    | .child i      => m.stepChild s i
    | .awaitResume  => m.awaitResume s

end Setup
end CollectAnyAwaiter
end AsyncSimple
