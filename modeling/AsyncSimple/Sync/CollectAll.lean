import AsyncSimple.Sync.Lifetime
import Mathlib.Data.Fin.Basic

open Transition

namespace AsyncSimple
namespace CollectAll

-- A future of the range refers to a shared state, or it contains its result itself.
inductive Input (ε α ξ γ : Type)
  | localState (try_value_ : Try ε α)
  | shared     (s : Lifetime.Config ε α Unit ξ γ)

namespace Input

variable {ε α ξ γ : Type}

-- `Future::HasResult`
def hasResult : Input ε α ξ γ → Bool
  | localState t => t.available
  | shared s     => s.fs.hasResult

-- `Future::Result`
def result : Input ε α ξ γ → Try ε α
  | localState t => t
  | shared s     => s.fs.try_value_

-- A future without continuation that is neither broken nor moved out.
def valid : Input ε α ξ γ → Bool
  | localState t => t.available
  | shared s     => 0 < s.holders .future && !s.fs.hasContinuation

end Input

-- For each future of the range, its result if it is a ready one, or `none` if it belongs to a promise.
structure Setup (n : Nat) (ε α : Type) where
  ready     : Fin n → Option (Try ε α)
  available : ∀ i t, ready i = some t → t.available

-- The next step of `CollectAll`.
inductive Pc (n : Nat) (ε α : Type)
  | notStarted
  -- The loops of `std::all_of`, and of the path on which all futures are ready.
  | allOf           (i : Nat)
  | collect         (i : Nat) (results : List (Try ε α))
  | makeContext
  | loop            (i : Nat)
  | setResult       (i : Fin n)
  | setContinuation (i : Fin n)
  -- The local variable `ctx` is destroyed.
  | release
  | returned

-- The continuation of a future consists of a reference to the context and of the number of the
-- future. In `published` there are the results that the returned future has been given.
structure Config (n : Nat) (ε α ξ γ : Type) where
  inputs    : Fin n → Input ε α ξ γ
  pc        : Pc n ε α
  use_count : Nat
  results   : List (Try ε α)
  published : List (List (Try ε α))

-- The futures of the range get their results, and their continuations are run and destroyed, by the
-- steps of their shared states, whose executors answer: as there, their functions do not throw.
inductive Action (n : Nat) (ε α : Type)
  | collectAll
  | input (i : Fin n) (act : Lifetime.Action ε α Unit)

variable {n : Nat} {ε α ξ γ : Type}

namespace Config

def goto (s : Config n ε α ξ γ) (pc : Pc n ε α) : Config n ε α ξ γ :=
  { s with pc }

def setInput (s : Config n ε α ξ γ) (i : Fin n) (x : Input ε α ξ γ) : Config n ε α ξ γ :=
  { s with inputs := Function.update s.inputs i x }

-- `ctx->results[i] = std::move(t)`
def store (s : Config n ε α ξ γ) (i : Fin n) (t : Try ε α) : Config n ε α ξ γ :=
  { s with results := s.results.set i t }

-- Destroys a reference to the context, where the destructor of the context fulfills the promise.
def unref (s : Config n ε α ξ γ) : Config n ε α ξ γ :=
  if s.use_count = 1 then
    { s with use_count := 0, published := s.published ++ [s.results] }
  else
    { s with use_count := s.use_count - 1 }

-- `cur->SetContinuation`, where a future without shared state runs the continuation at once.
def setContinuation (s : Config n ε α ξ γ) (i : Fin n) : Option (Config n ε α ξ γ) :=
  match s.inputs i with
  | .localState t => if t.available then s.store i t else none
  | .shared c     =>
    (Lifetime.system.step c (.setContinuation ())).map fun c =>
      { s.setInput i (.shared c) with use_count := s.use_count + 1 }

def stepCollectAll (s : Config n ε α ξ γ) : Option (Config n ε α ξ γ) :=
  match s.pc with
  | .notStarted => if ∀ i, (s.inputs i).valid then s.goto (.allOf 0) else none
  | .allOf i =>
    if h : i < n then
      if (s.inputs ⟨i, h⟩).hasResult then s.goto (.allOf (i + 1)) else s.goto .makeContext
    else
      s.goto (.collect 0 [])
  | .collect i results =>
    if h : i < n then
      s.goto (.collect (i + 1) (results ++ [(s.inputs ⟨i, h⟩).result]))
    else
      { s with published := s.published ++ [results] }.goto .returned
  | .makeContext =>
    { s with use_count := 1, results := List.replicate n .nothing }.goto (.loop 0)
  | .loop i =>
    if h : i < n then
      s.goto (if (s.inputs ⟨i, h⟩).hasResult then .setResult ⟨i, h⟩ else .setContinuation ⟨i, h⟩)
    else
      s.goto .release
  | .setResult i       => (s.store i (s.inputs i).result).goto (.loop (i + 1))
  | .setContinuation i => (s.setContinuation i).map (·.goto (.loop (i + 1)))
  | .release           => s.unref.goto .returned
  | .returned          => none

-- Nothing else sets a continuation for a future of the range, and the future is not destroyed before
-- `CollectAll` has returned.
def allows (s : Config n ε α ξ γ) (c : Lifetime.Config ε α Unit ξ γ) :
    Lifetime.Action ε α Unit → Bool
  | .setContinuation _                => false
  | .destroyFuture | .overwriteFuture =>
    match s.pc with
    | .notStarted | .returned => true
    | _                       => c.holders .future ≠ 1
  | _ => true

-- The continuation stores the result when it is executed, and its reference to the context is
-- destroyed together with it.
def observe (s : Config n ε α ξ γ) (i : Fin n) (c c' : Lifetime.Config ε α Unit ξ γ) :
    Config n ε α ξ γ :=
  let s := if c.executed < c'.executed then s.store i c'.fs.try_value_ else s
  if c.destroyed < c'.destroyed then s.unref else s

def stepInput (s : Config n ε α ξ γ) (i : Fin n) (act : Lifetime.Action ε α Unit) :
    Option (Config n ε α ξ γ) :=
  match s.inputs i with
  | .localState _ => none
  | .shared c     =>
    if s.allows c act then
      (Lifetime.system.step c act).map fun c' => (s.setInput i (.shared c')).observe i c c'
    else
      none

end Config

namespace Setup

-- A promise-backed future is taken from a promise, before `CollectAll` starts.
def init (m : Setup n ε α) : Config n ε α ξ γ where
  inputs i  := match m.ready i with
    | some t => .localState t
    | none   => .shared .new
  pc        := .notStarted
  use_count := 0
  results   := []
  published := []

def system (m : Setup n ε α) : System (Config n ε α ξ γ) (Action n ε α) where
  init := m.init
  step s
    | .collectAll  => s.stepCollectAll
    | .input i act => s.stepInput i act

end Setup
end CollectAll
end AsyncSimple
