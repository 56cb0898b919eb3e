import AsyncSimple.Lib.Transition
import Mathlib.Logic.Function.Basic

open Transition

namespace AsyncSimple
namespace Ownership

-- The coroutine of a `Lazy` waits for its start, or for its executor to start it, or it has been
-- started, and its promise has got a result then.
inductive Progress
  | initial
  | scheduled
  | started
  | returned
  | thrown
  deriving DecidableEq, Repr

-- A coroutine frame with what its promise contains, where `destroyed` is a record of how often the
-- frame has been destroyed.
structure Frame (ξ κ : Type) where
  executor_     : Option ξ
  continuation_ : Option κ
  progress      : Progress
  destroyed     : Nat

inductive Kind
  | lazy
  | rescheduleLazy
  deriving DecidableEq, Repr

-- The handle objects. An awaiter belongs to a `Lazy` or to a `RescheduleLazy`, and it is a
-- `TryAwaiter` or a `ValueAwaiter`.
inductive Object
  | owner   (kind : Kind) (coro_ : Option Nat)
  | awaiter (kind : Kind) (isTry : Bool) (handle : Option Nat)
  | destroyed
  deriving DecidableEq, Repr

namespace Object

def handle : Object → Option Nat
  | owner _ coro_      => coro_
  | awaiter _ _ handle => handle
  | destroyed          => none

-- What `std::exchange(other.coro_, nullptr)` leaves behind.
def moved : Object → Object
  | owner kind _         => owner kind none
  | awaiter kind isTry _ => awaiter kind isTry none
  | destroyed            => destroyed

end Object

-- Frames and objects are given by their numbers in the order of their creation. An object may be
-- anywhere: it may also be a parameter or a local object of a coroutine, whose destruction then
-- comes with actions of its own for its objects.
structure Config (ξ κ : Type) where
  frames  : Nat → Frame ξ κ
  fresh   : Nat
  objects : List Object

inductive Action (ξ κ : Type)
  -- The call of a coroutine function.
  | create
  | moveConstruct  (other : Nat)
  -- The move assignment of awaiters.
  | moveAssign     (this other : Nat)
  | via            (this : Nat) (executor : Option ξ)
  | setExecutor    (this : Nat) (executor : Option ξ)
  | coAwait        (this : Nat)
  | coAwaitOn      (this : Nat) (executor : Option ξ)
  | coAwaitTry     (this : Nat)
  | inherit        (this : Nat) (executor : Option ξ)
  | awaitSuspend   (this : Nat) (continuation : κ) (accepted : Bool)
  | runTask        (frame : Nat)
  | finish         (frame : Nat) (throws : Bool)
  | awaitResume    (this : Nat) (throws : Bool)
  | awaitResumeTry (this : Nat)
  | start          (this : Nat) (continuation : κ) (accepted : Bool)
  | destroy        (this : Nat)

variable {ξ κ : Type}

namespace Config

def add (s : Config ξ κ) (x : Object) : Config ξ κ :=
  { s with objects := s.objects ++ [x] }

def set (s : Config ξ κ) (i : Nat) (x : Object) : Config ξ κ :=
  { s with objects := s.objects.set i x }

def setFrame (s : Config ξ κ) (f : Nat) (frame : Frame ξ κ) : Config ξ κ :=
  { s with frames := Function.update s.frames f frame }

def setProgress (s : Config ξ κ) (f : Nat) (progress : Progress) : Config ξ κ :=
  s.setFrame f { s.frames f with progress }

-- `handle.destroy()`
def destroyFrame (s : Config ξ κ) (f : Nat) : Config ξ κ :=
  s.setFrame f { s.frames f with destroyed := (s.frames f).destroyed + 1 }

def create (s : Config ξ κ) : Config ξ κ :=
  { s.setFrame s.fresh ⟨none, none, .initial, 0⟩ with fresh := s.fresh + 1 }.add
    (.owner .lazy (some s.fresh))

def moveConstruct (s : Config ξ κ) (other : Nat) : Option (Config ξ κ) :=
  match s.objects[other]? with
  | some .destroyed | none => none
  | some x                 => (s.set other x.moved).add x

def moveAssign (s : Config ξ κ) (this other : Nat) : Option (Config ξ κ) :=
  match s.objects[this]?, s.objects[other]? with
  | some (.awaiter kind isTry _), some (.awaiter kind' isTry' handle) =>
    if kind = kind' ∧ isTry = isTry' then
      (s.set other (.awaiter kind isTry none)).set this (.awaiter kind isTry handle)
    else
      none
  | _, _ => none

-- Sets the executor of the promise, and hands the coroutine to a new object. Without a coroutine,
-- the assertion in `Via` and `SetExecutor` throws.
def rebind (s : Config ξ κ) (this : Nat) (executor : Option ξ) (make : Option Nat → Object) :
    Option (Config ξ κ) :=
  match s.objects[this]? with
  | some (.owner .lazy (some f)) =>
    ((s.setFrame f { s.frames f with executor_ := executor }).set this (.owner .lazy none)).add
      (make (some f))
  | some (.owner .lazy none) => s
  | _                        => none

def via (s : Config ξ κ) (this : Nat) (executor : Option ξ) : Option (Config ξ κ) :=
  s.rebind this executor (.owner .rescheduleLazy)

def setExecutor (s : Config ξ κ) (this : Nat) (executor : Option ξ) : Option (Config ξ κ) :=
  s.rebind this executor (.owner .lazy)

-- `operator co_await` and `CoAwaitTry`
def await (s : Config ξ κ) (this : Nat) (isTry : Bool) : Option (Config ξ κ) :=
  match s.objects[this]? with
  | some (.owner kind coro_) => (s.set this (.owner kind none)).add (.awaiter kind isTry coro_)
  | _                        => none

-- `Lazy::CoAwait`, which dereferences `coro_`.
def awaitOn (s : Config ξ κ) (this : Nat) (executor : Option ξ) : Option (Config ξ κ) :=
  match s.objects[this]? with
  | some (.owner .lazy (some f)) =>
    (s.setFrame f { s.frames f with executor_ := executor }).await this false
  | _ => none

-- A child that is not bound to an executor gets that of the coroutine which awaits it by
-- `CollectAll` or `CollectAny`.
def inherit (s : Config ξ κ) (this : Nat) (executor : Option ξ) : Option (Config ξ κ) :=
  match s.objects[this]? with
  | some (.owner _ (some f)) =>
    s.setFrame f { s.frames f with executor_ := (s.frames f).executor_.or executor }
  | _ => none

-- The awaiter of a `Lazy` transfers control to the coroutine, and that of a `RescheduleLazy`
-- schedules it, which the executor may refuse.
def awaitSuspend (s : Config ξ κ) (this : Nat) (continuation : κ) (accepted : Bool) :
    Option (Config ξ κ) :=
  match s.objects[this]? with
  | some (.awaiter kind _ (some f)) =>
    let s := s.setFrame f { s.frames f with continuation_ := some continuation }
    match kind with
    | .lazy           => s.setProgress f .started
    | .rescheduleLazy => if accepted then s.setProgress f .scheduled else s
  | _ => none

def runTask (s : Config ξ κ) (f : Nat) : Option (Config ξ κ) :=
  if (s.frames f).progress = .scheduled then s.setProgress f .started else none

def finish (s : Config ξ κ) (f : Nat) (throws : Bool) : Option (Config ξ κ) :=
  if (s.frames f).progress = .started then
    s.setProgress f (if throws then .thrown else .returned)
  else
    none

-- The awaiter keeps the coroutine, if `Result` throws, or if moving the result out throws.
def awaitResume (s : Config ξ κ) (this : Nat) (throws : Bool) : Option (Config ξ κ) :=
  match s.objects[this]? with
  | some (.awaiter kind false (some f)) =>
    match (s.frames f).progress with
    | .thrown   => s
    | .returned => if throws then s else (s.destroyFrame f).set this (.awaiter kind false none)
    | _         => none
  | _ => none

def awaitResumeTry (s : Config ξ κ) (this : Nat) : Option (Config ξ κ) :=
  match s.objects[this]? with
  | some (.awaiter kind true (some f)) =>
    match (s.frames f).progress with
    | .thrown | .returned => (s.destroyFrame f).set this (.awaiter kind true none)
    | _                   => none
  | _ => none

-- `Start` moves the object into the parameter of `launch_coro`, and that into the frame of the
-- launched coroutine, which awaits it. `Detach` and `SyncAwait` call `Start`.
def start (s : Config ξ κ) (this : Nat) (continuation : κ) (accepted : Bool) : Option (Config ξ κ) := do
  let param := s.objects.length
  let s ← s.moveConstruct this
  let s ← s.moveConstruct param
  let s ← s.await (param + 1) true
  s.awaitSuspend (param + 2) continuation accepted

-- The destructor. A `RescheduleLazy` has none of its own.
def destroy (s : Config ξ κ) (this : Nat) : Option (Config ξ κ) :=
  match s.objects[this]? with
  | some (.owner .lazy (some f))     => (s.destroyFrame f).set this .destroyed
  | some (.owner .lazy none)         => s.set this .destroyed
  | some (.owner .rescheduleLazy _)  => s.set this .destroyed
  | some (.awaiter _ _ (some f))     => (s.destroyFrame f).set this .destroyed
  | some (.awaiter _ _ none)         => s.set this .destroyed
  | some .destroyed | none           => none

def step (s : Config ξ κ) : Action ξ κ → Option (Config ξ κ)
  | .create                                => s.create
  | .moveConstruct other                   => s.moveConstruct other
  | .moveAssign this other                 => s.moveAssign this other
  | .via this executor                     => s.via this executor
  | .setExecutor this executor             => s.setExecutor this executor
  | .coAwait this                          => s.await this false
  | .coAwaitOn this executor               => s.awaitOn this executor
  | .coAwaitTry this                       => s.await this true
  | .inherit this executor                 => s.inherit this executor
  | .awaitSuspend this continuation accept => s.awaitSuspend this continuation accept
  | .runTask frame                         => s.runTask frame
  | .finish frame throws                   => s.finish frame throws
  | .awaitResume this throws               => s.awaitResume this throws
  | .awaitResumeTry this                   => s.awaitResumeTry this
  | .start this continuation accept        => s.start this continuation accept
  | .destroy this                          => s.destroy this

end Config

-- `CollectAll` starts all children. `CollectAny` starts children until one of them has a result (here,
-- the first `started` ones), and then destroys the vector with all of them.

def launch (executor : Option ξ) (continuation : κ) (child : Nat) : List (Action ξ κ) :=
  [.inherit child executor, .start child continuation true]

def collectAll (input : List Nat) (executor : Option ξ) (continuation : κ) : List (Action ξ κ) :=
  input.flatMap (launch executor continuation)

def collectAny (input : List Nat) (started : Nat) (executor : Option ξ) (continuation : κ) :
    List (Action ξ κ) :=
  collectAll (input.take started) executor continuation ++ input.map .destroy

def system : System (Config ξ κ) (Action ξ κ) where
  init := { frames _ := ⟨none, none, .initial, 0⟩, fresh := 0, objects := [] }
  step := Config.step

end Ownership
end AsyncSimple
