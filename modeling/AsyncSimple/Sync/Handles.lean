import AsyncSimple.Lib.Transition
import AsyncSimple.Sync.FutureState
import Mathlib.Logic.Function.Basic

open Transition

namespace AsyncSimple

-- A `FutureState` with its reference counters. No operation reads the fields from `given` on: the
-- result that has been set through one of its promises, and the numbers of promises and of futures
-- that have referred to the state, until a move assignment has overwritten them.
structure SharedState (ε α κ ξ γ : Type) extends FutureState ε α κ ξ γ where
  attached_         : BitVec 8
  continuation_ref_ : BitVec 8
  promise_ref_      : BitVec 64
  deleted           : Bool
  given             : Option (Try ε α)
  lostPromises      : Nat
  lostFutures       : Nat

inductive Fault
  | assertFailed
  | useAfterDelete
  | nullDereference
  deriving DecidableEq, Repr

namespace SharedState

variable {ε α κ ξ γ : Type}

def new : SharedState ε α κ ξ γ where
  toFutureState     := .new
  attached_         := 0
  continuation_ref_ := 0
  promise_ref_      := 0
  deleted           := false
  given             := none
  lostPromises      := 0
  lostFutures       := 0

def attachOne (fs : SharedState ε α κ ξ γ) : SharedState ε α κ ξ γ :=
  { fs with attached_ := fs.attached_ + 1 }

def detachOne (fs : SharedState ε α κ ξ γ) : Except Fault (SharedState ε α κ ξ γ) :=
  let old := fs.attached_
  if old ≥ 1 then
    .ok { fs with attached_ := old - 1, deleted := old = 1 }
  else
    .error .assertFailed

def attachPromise (fs : SharedState ε α κ ξ γ) : SharedState ε α κ ξ γ :=
  attachOne { fs with promise_ref_ := fs.promise_ref_ + 1 }

-- `ContinuationReference::Attach`
def attachReference (fs : SharedState ε α κ ξ γ) : SharedState ε α κ ξ γ :=
  { fs.attachOne with continuation_ref_ := fs.continuation_ref_ + 1 }

-- `ContinuationReference::Detach`
def detachReference (fs : SharedState ε α κ ξ γ) : Except Fault (SharedState ε α κ ξ γ) :=
  let old := fs.continuation_ref_
  if old ≥ 1 then
    detachOne { fs with continuation_ref_ := old - 1 }
  else
    .error .assertFailed

-- `ScheduleContinuation` creates one guard, if it runs the continuation right away (`inline`), and a
-- second one, if it first submits the continuation to the executor.
def scheduleContinuation (fs : SharedState ε α κ ξ γ) (inline : Bool) : SharedState ε α κ ξ γ × Nat :=
  if inline then
    (fs.attachReference, 1)
  else
    (fs.attachReference.attachReference, 2)

def schedule (fs : SharedState ε α κ ξ γ) (inline : Bool) (r : FutureState ε α κ ξ γ × Bool) :
    SharedState ε α κ ξ γ × Nat :=
  let fs := { fs with toFutureState := r.1 }
  if r.2 then fs.scheduleContinuation inline else (fs, 0)

-- `SetResult` and `SetContinuation`, with the number of guards that they have created.
def setResult (fs : SharedState ε α κ ξ γ) (value : Try ε α) (inline : Bool) :
    Except (Exception ε) (SharedState ε α κ ξ γ × Nat) :=
  (fs.toFutureState.setResult value).map (fs.schedule inline)

def setContinuation (fs : SharedState ε α κ ξ γ) (func : κ) (inline : Bool) :
    Except (Exception ε) (SharedState ε α κ ξ γ × Nat) :=
  (fs.toFutureState.setContinuation func).map (fs.schedule inline)

def brokenPromise : Try ε α :=
  .exception (.runtimeError "Promise is broken")

-- `DetachPromise` up to its call of `DetachOne`.
def detachPromise (fs : SharedState ε α κ ξ γ) (inline : Bool) :
    Except Fault (SharedState ε α κ ξ γ × Nat) :=
  let old := fs.promise_ref_
  if old ≥ 1 then
    let fs := { fs with promise_ref_ := old - 1 }
    if !fs.hasResult && old = 1 then
      match fs.setResult brokenPromise inline with
      | .ok r    => .ok r
      | .error _ => .ok (fs, 0)
    else
      .ok (fs, 0)
  else
    .error .assertFailed

end SharedState

namespace Handles

-- The objects of a program that refer to shared states, by their addresses. A promise is `detaching`
-- between `DetachPromise` setting a result and calling `DetachOne`, when other code may run. After
-- that, the promise is `destroyed`, or copy assignment goes on to copy the promise `other`.
inductive Next
  | destroyed
  | copy (other : Nat)
  deriving DecidableEq, Repr

inductive Handle
  | promise   (shared_state_ : Option Nat) (has_future_ : Bool)
  | detaching (shared_state_ : Nat) (next : Next)
  | copying   (other : Nat)
  | future    (shared_state_ : Option Nat)
  | reference (fs_ : Option Nat)
  | destroyed
  deriving DecidableEq, Repr

def Next.handle : Next → Handle
  | destroyed  => .destroyed
  | copy other => .copying other

structure Config (ε α κ ξ γ : Type) where
  states  : Nat → SharedState ε α κ ξ γ
  fresh   : Nat
  handles : List Handle
  fault   : Option Fault

-- Handles are given by their number in the order of their creation. The argument `inline` tells how
-- `ScheduleContinuation` runs the continuation, if the operation calls it.
inductive Action (ε α κ : Type)
  | newPromise
  | copyPromise      (other : Nat)
  | movePromise      (other : Nat)
  | copyAssign       (this other : Nat) (inline : Bool)
  | moveAssign       (this other : Nat)
  | destroyPromise   (this : Nat) (inline : Bool)
  | detachOne        (this : Nat)
  | copy             (this : Nat)
  | setResult        (this : Nat) (value : Try ε α) (inline : Bool)
  | getFuture        (this : Nat)
  | moveFuture       (other : Nat)
  | moveAssignFuture (this other : Nat)
  | destroyFuture    (this : Nat)
  | setContinuation  (this : Nat) (func : κ) (inline : Bool)
  | copyReference    (other : Nat)
  | moveReference    (other : Nat)
  | destroyReference (this : Nat)

variable {ε α κ ξ γ : Type}

namespace Config

def add (s : Config ε α κ ξ γ) (h : Handle) : Config ε α κ ξ γ :=
  { s with handles := s.handles ++ [h] }

def set (s : Config ε α κ ξ γ) (i : Nat) (h : Handle) : Config ε α κ ξ γ :=
  { s with handles := s.handles.set i h }

def setState (s : Config ε α κ ξ γ) (a : Nat) (fs : SharedState ε α κ ξ γ) : Config ε α κ ξ γ :=
  { s with states := Function.update s.states a fs }

def fail (s : Config ε α κ ξ γ) (f : Fault) : Config ε α κ ξ γ :=
  { s with fault := some f }

def addGuards (s : Config ε α κ ξ γ) (a guards : Nat) : Config ε α κ ξ γ :=
  { s with handles := s.handles ++ List.replicate guards (.reference (some a)) }

-- Calls a member function of the shared state at an address. The function returns the number of
-- guards that it has created, and `k` is what the caller does next.
def call (s : Config ε α κ ξ γ) (a : Nat)
    (f : SharedState ε α κ ξ γ → Except Fault (SharedState ε α κ ξ γ × Nat))
    (k : Config ε α κ ξ γ → Config ε α κ ξ γ) : Config ε α κ ξ γ :=
  if (s.states a).deleted then
    s.fail .useAfterDelete
  else
    match f (s.states a) with
    | .ok (fs, guards) => k ((s.setState a fs).addGuards a guards)
    | .error f         => s.fail f

-- A move assignment has overwritten a promise or a future that has referred to this state.

def losePromise (s : Config ε α κ ξ γ) : Option Nat → Config ε α κ ξ γ
  | some a => s.setState a { s.states a with lostPromises := (s.states a).lostPromises + 1 }
  | none   => s

def loseFuture (s : Config ε α κ ξ γ) : Option Nat → Config ε α κ ξ γ
  | some a => s.setState a { s.states a with lostFutures := (s.states a).lostFutures + 1 }
  | none   => s

def newPromise (s : Config ε α κ ξ γ) : Config ε α κ ξ γ :=
  { s.setState s.fresh SharedState.new.attachPromise with fresh := s.fresh + 1 }.add
    (.promise (some s.fresh) false)

-- Copies the promise `other`, where `k` stores the copy.
def copyPromise (s : Config ε α κ ξ γ) (other : Nat)
    (k : Handle → Config ε α κ ξ γ → Config ε α κ ξ γ) : Option (Config ε α κ ξ γ) :=
  match s.handles[other]? with
  | some (.promise (some a) has_future_) =>
    s.call a (fun fs => .ok (fs.attachPromise, 0)) (k (.promise (some a) has_future_))
  | some (.promise none _) => s.fail .nullDereference
  | _                      => none

-- `~Promise()` up to its call of `DetachOne`.
def detachPromise (s : Config ε α κ ξ γ) (this : Nat) (inline : Bool) (next : Next) :
    Option (Config ε α κ ξ γ) :=
  match s.handles[this]? with
  | some (.promise (some a) _) => s.call a (·.detachPromise inline) (·.set this (.detaching a next))
  | some (.promise none _)     => s.set this next.handle
  | _                          => none

def moveAssign (s : Config ε α κ ξ γ) (this other : Nat) : Option (Config ε α κ ξ γ) :=
  match s.handles[this]?, s.handles[other]? with
  | some (.promise old _), some (.promise shared_state_ has_future_) =>
    if this = other then
      s
    else
      ((s.losePromise old).set this (.promise shared_state_ has_future_)).set other (.promise none false)
  | _, _ => none

def moveAssignFuture (s : Config ε α κ ξ γ) (this other : Nat) : Option (Config ε α κ ξ γ) :=
  match s.handles[this]?, s.handles[other]? with
  | some (.future old), some (.future shared_state_) =>
    if this = other then
      s
    else
      ((s.loseFuture old).set this (.future shared_state_)).set other (.future none)
  | _, _ => none

-- `SetValue` and `SetException`. When they throw, nothing changes.
def setResult (s : Config ε α κ ξ γ) (this : Nat) (value : Try ε α) (inline : Bool) :
    Option (Config ε α κ ξ γ) :=
  match s.handles[this]? with
  | some (.promise (some a) _) =>
    s.call a
      (fun fs => match fs.setResult value inline with
        | .ok (fs, guards) => .ok ({ fs with given := some value }, guards)
        | .error _         => .ok (fs, 0))
      id
  | some (.promise none _) => s
  | _                      => none

-- The assertions of `GetFuture` come before anything changes.
def getFuture (s : Config ε α κ ξ γ) (this : Nat) : Option (Except (Exception ε) (Config ε α κ ξ γ)) :=
  match s.handles[this]? with
  | some (.promise none _)         => some (.error (.logicError "Promise is broken"))
  | some (.promise (some _) true)  => some (.error (.logicError "Promise already has a future"))
  | some (.promise (some a) false) =>
    some <| .ok <| s.call a (fun fs => .ok (fs.attachOne, 0)) fun s =>
      (s.set this (.promise (some a) true)).add (.future (some a))
  | _ => none

def setContinuation (s : Config ε α κ ξ γ) (this : Nat) (func : κ) (inline : Bool) :
    Option (Config ε α κ ξ γ) :=
  match s.handles[this]? with
  | some (.future (some a)) =>
    s.call a
      (fun fs => match fs.setContinuation func inline with
        | .ok r    => .ok r
        | .error _ => .ok (fs, 0))
      id
  | _ => none

end Config

def step (s : Config ε α κ ξ γ) (a : Action ε α κ) : Option (Config ε α κ ξ γ) :=
  match a with
  | .newPromise                    => s.newPromise
  | .copyPromise other             => s.copyPromise other fun h s => s.add h
  | .movePromise other             =>
    match s.handles[other]? with
    | some (.promise shared_state_ has_future_) =>
      (s.set other (.promise none false)).add (.promise shared_state_ has_future_)
    | _ => none
  | .copyAssign this other inline  =>
    if this = other then s else s.detachPromise this inline (.copy other)
  | .moveAssign this other         => s.moveAssign this other
  | .destroyPromise this inline    => s.detachPromise this inline .destroyed
  | .detachOne this                =>
    match s.handles[this]? with
    | some (.detaching a next) => s.call a (·.detachOne.map (·, 0)) (·.set this next.handle)
    | _                        => none
  | .copy this                     =>
    match s.handles[this]? with
    | some (.copying other) => s.copyPromise other fun h s => s.set this h
    | _                     => none
  | .setResult this value inline   => s.setResult this value inline
  | .getFuture this                => (s.getFuture this).map (·.toOption.getD s)
  | .moveFuture other              =>
    match s.handles[other]? with
    | some (.future shared_state_) => (s.set other (.future none)).add (.future shared_state_)
    | _                            => none
  | .moveAssignFuture this other   => s.moveAssignFuture this other
  | .destroyFuture this            =>
    match s.handles[this]? with
    | some (.future (some a)) => s.call a (·.detachOne.map (·, 0)) (·.set this .destroyed)
    | some (.future none)     => s.set this .destroyed
    | _                       => none
  | .setContinuation this func inline => s.setContinuation this func inline
  | .copyReference other           =>
    match s.handles[other]? with
    | some (.reference (some a)) =>
      s.call a (fun fs => .ok (fs.attachReference, 0)) (·.add (.reference (some a)))
    | some (.reference none) => s.add (.reference none)
    | _                      => none
  | .moveReference other           =>
    match s.handles[other]? with
    | some (.reference fs_) => (s.set other (.reference none)).add (.reference fs_)
    | _                     => none
  | .destroyReference this         =>
    match s.handles[this]? with
    | some (.reference (some a)) => s.call a (·.detachReference.map (·, 0)) (·.set this .destroyed)
    | some (.reference none)     => s.set this .destroyed
    | _                          => none

def system : System (Config ε α κ ξ γ) (Action ε α κ) where
  init := { states _ := .new, fresh := 0, handles := [], fault := none }
  step s a := if s.fault = none then step s a else none

end Handles
end AsyncSimple
