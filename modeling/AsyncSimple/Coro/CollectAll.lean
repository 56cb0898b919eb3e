import AsyncSimple.Lib.Transition
import AsyncSimple.Base.Try
import AsyncSimple.Coro.CountEvent
import Mathlib.Data.Fin.Basic
import Mathlib.Logic.Function.Basic

open Transition

namespace AsyncSimple
namespace CollectAllAwaiter

-- The next step of `await_suspend`, where `launch` runs `func`, or gives it to the executor.
inductive StarterPc (n : Nat) (κ : Type)
  | loop   (i : Nat)
  | bind   (i : Fin n)
  | launch (i : Fin n)
  | setAwaitingCoroutine
  | finish (pc : DownPc κ)
  deriving DecidableEq, Repr

-- The next step of a child. It may run for any time before it has its result, on which the callback
-- given to `Start` is called then. As a child takes its steps independently of the starter, this
-- includes those that finish before `Start` returns.
inductive ChildPc (ε α κ : Type)
  | notStarted
  | queued
  | running
  | callback (t : Try ε α)
  | finish   (pc : DownPc κ)
  deriving DecidableEq, Repr

structure Setup (n : Nat) (κ ξ : Type) where
  para         : Bool
  executor     : Option ξ
  input        : Fin n → Option ξ
  continuation : κ

-- The first three fields are those of the awaiter, where `input` consists of the executors that the
-- promises of the children are bound to. The fields from `resumed` on are a record of the run, which
-- no step reads: the coroutines that have been resumed, whether a step after that has used the
-- awaiter, and the results of the children.
structure Config (n : Nat) (ε α κ ξ : Type) where
  input    : Fin n → Option ξ
  output   : List (Try ε α)
  event    : CountEvent κ
  starter  : StarterPc n κ
  child    : Fin n → ChildPc ε α κ
  resumed  : List κ
  late     : Bool
  produced : Fin n → Option (Try ε α)

inductive Action (n : Nat) (ε α : Type)
  | starter
  -- The executor runs the function that starts a child.
  | runTask  (i : Fin n)
  | complete (i : Fin n) (t : Try ε α)
  | child    (i : Fin n)

variable {n : Nat} {ε α κ ξ : Type}

namespace Config

-- A step that reads or writes the awaiter.
def touch (s : Config n ε α κ ξ) : Config n ε α κ ξ :=
  { s with late := s.late || !s.resumed.isEmpty }

def goto (s : Config n ε α κ ξ) (pc : StarterPc n κ) : Config n ε α κ ξ :=
  { s with starter := pc }

def setChild (s : Config n ε α κ ξ) (i : Fin n) (pc : ChildPc ε α κ) : Config n ε α κ ξ :=
  { s with child := Function.update s.child i pc }

-- A step of `event.Down()`, or of the resumption after it, which uses the awaiter no longer.
def down (s : Config n ε α κ ξ) (pc : DownPc κ) : Option (Config n ε α κ ξ × DownPc κ) :=
  match pc.step s.event s.resumed with
  | none => none
  | some (event, resumed, pc') =>
    match pc with
    | .resume _ => some ({ s with resumed }, pc')
    | _         => some ({ s.touch with event }, pc')

end Config

namespace Setup

def init (m : Setup n κ ξ) : Config n ε α κ ξ where
  input      := m.input
  output     := List.replicate n .nothing
  event      := .new n
  starter    := .loop 0
  child _    := .notStarted
  resumed    := []
  late       := false
  produced _ := none

def stepStarter (m : Setup n κ ξ) (s : Config n ε α κ ξ) : Option (Config n ε α κ ξ) :=
  match s.starter with
  | .loop i =>
    if h : i < n then
      s.touch.goto (.bind ⟨i, h⟩)
    else
      s.touch.goto .setAwaitingCoroutine
  | .bind i =>
    let exec := match s.input i with | none => m.executor | exec => exec
    { s.touch with input := Function.update s.input i exec }.goto (.launch i)
  | .launch i =>
    if m.para && 1 < n && m.executor.isSome then
      (s.touch.setChild i .queued).goto (.loop (i + 1))
    else
      (s.touch.setChild i .running).goto (.loop (i + 1))
  | .setAwaitingCoroutine =>
    { s.touch with event := s.event.setAwaitingCoroutine m.continuation }.goto (.finish .down)
  | .finish pc => (s.down pc).map fun (s, pc) => s.goto (.finish pc)

def stepChild (s : Config n ε α κ ξ) (i : Fin n) : Option (Config n ε α κ ξ) :=
  match s.child i with
  | .callback t => { s.touch with output := s.output.set i t }.setChild i (.finish .down)
  | .finish pc  => (s.down pc).map fun (s, pc) => s.setChild i (.finish pc)
  | _           => none

def runTask (s : Config n ε α κ ξ) (i : Fin n) : Option (Config n ε α κ ξ) :=
  match s.child i with
  | .queued => s.touch.setChild i .running
  | _       => none

-- The result of a child is never empty: `TryResult` makes it from a value or from an exception.
def complete (s : Config n ε α κ ξ) (i : Fin n) (t : Try ε α) : Option (Config n ε α κ ξ) :=
  match s.child i with
  | .running =>
    if t.available then
      { s with produced := Function.update s.produced i (some t) }.setChild i (.callback t)
    else
      none
  | _ => none

def system (m : Setup n κ ξ) : System (Config n ε α κ ξ) (Action n ε α) where
  init := m.init
  step s
    | .starter      => m.stepStarter s
    | .runTask i    => runTask s i
    | .complete i t => complete s i t
    | .child i      => stepChild s i

end Setup
end CollectAllAwaiter
end AsyncSimple
