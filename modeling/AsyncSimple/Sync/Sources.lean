import AsyncSimple.Base.TryObject
import AsyncSimple.Sync.FutureState
import Mathlib.Logic.Function.Basic

-- The two members of a `Future` that may hold its result, where a move of T may throw. Thus, the local
-- `Try` is given by its representation.

open Transition

namespace AsyncSimple
namespace Sources

structure LocalState (ε α ξ : Type) where
  try_value_ : TryObject ε α
  executor_  : Option ξ
  deriving DecidableEq, Repr

structure Future (ε α ξ : Type) where
  shared_state_ : Option Nat
  local_state_  : LocalState ε α ξ
  deriving DecidableEq, Repr

-- Where a result is.
inductive Source
  | shared (a : Nat)
  | own
  deriving DecidableEq, Repr

-- What the moves of T do in a call of `std::swap`: that to the temporary object, that from the second
-- argument to the first one, and that from the temporary object.
structure SwapMoves (α : Type) where
  save    : α → Option α × α
  replace : α → Option α × α
  restore : α → Option α × α

structure Swapped (ε α : Type) where
  this   : TryObject ε α
  other  : TryObject ε α
  throws : Bool
  ledger : Ledger

variable {ε α κ ξ γ : Type}

-- The `std::swap` of two objects, by the move operations of `Try`.
def swap (this other : TryObject ε α) (m : SwapMoves α) (l : Ledger) : Swapped ε α :=
  let saved := this.moveConstruct m.save l
  match saved.1 with
  | none => { this := saved.2.1, other := other, throws := true, ledger := saved.2.2 }
  | some tmp =>
    let replaced := saved.2.1.moveAssign other m.replace saved.2.2
    if other.throws m.replace then
      { this := replaced.1, other := replaced.2.1, throws := true, ledger := (tmp.destroy replaced.2.2).2 }
    else
      let restored := replaced.2.1.moveAssign tmp m.restore replaced.2.2
      { this   := replaced.1
        other  := restored.1
        throws := tmp.throws m.restore
        ledger := (restored.2.1.destroy restored.2.2).2 }

namespace LocalState

def new : LocalState ε α ξ where
  try_value_ := .make
  executor_  := none

def hasResult (l : LocalState ε α ξ) : Bool :=
  l.try_value_.available

end LocalState

namespace Future

-- From a pointer to a shared state, which may be null.
def ofState (a : Option Nat) : Future ε α ξ where
  shared_state_ := a
  local_state_  := .new

-- From a `Try`, which is moved. There is no future when this throws.
def ofTry (t : TryObject ε α) (move : α → Option α × α) (l : Ledger) : Option (Future ε α ξ) × Ledger :=
  let m := t.moveConstruct move l
  (m.1.map fun t => { shared_state_ := none, local_state_ := { try_value_ := t, executor_ := none } }, m.2.2)

def moveConstruct (other : Future ε α ξ) (move : α → Option α × α) (l : Ledger) :
    Option (Future ε α ξ) × Future ε α ξ × Ledger :=
  let m := other.local_state_.try_value_.moveConstruct move l
  (m.1.map fun t => { other with local_state_ := { other.local_state_ with try_value_ := t } },
    { shared_state_ := none
      local_state_  := {
        try_value_ := m.2.1
        executor_  := if m.1.isSome then none else other.local_state_.executor_ } },
    m.2.2)

-- The assignment from another future. The pointer has been exchanged when the swap throws.
def moveAssign (this other : Future ε α ξ) (m : SwapMoves α) (l : Ledger) : Future ε α ξ × Future ε α ξ × Ledger :=
  let w := swap this.local_state_.try_value_ other.local_state_.try_value_ m l
  let executors := if w.throws then (this.local_state_.executor_, other.local_state_.executor_)
    else (other.local_state_.executor_, this.local_state_.executor_)
  ({ shared_state_ := other.shared_state_, local_state_ := { try_value_ := w.this, executor_ := executors.1 } },
    { shared_state_ := none, local_state_ := { try_value_ := w.other, executor_ := executors.2 } },
    w.ledger)

def valid (f : Future ε α ξ) : Bool :=
  f.shared_state_.isSome || f.local_state_.hasResult

-- This is `none` where a null `shared_state_` is dereferenced.
def hasResult (f : Future ε α ξ) (states : Nat → FutureState ε α κ ξ γ) : Option Bool :=
  if f.local_state_.hasResult then some true else f.shared_state_.map fun a => (states a).hasResult

-- The member that these functions look at: `GetTry`, `SetExecutor`, `GetExecutor`, `SetContinuation`,
-- `CurrentThreadInExecutor` and `ThenImpl`.
def source (f : Future ε α ξ) : Source :=
  match f.shared_state_ with
  | some a => .shared a
  | none   => .own

-- `GetTry` returns a reference.
def getTry (f : Future ε α ξ) (states : Nat → FutureState ε α κ ξ γ) : Option (Except (Exception ε) Source) :=
  if f.valid then
    (f.hasResult states).map fun r =>
      if r then .ok f.source else .error (.logicError "Future is not ready")
  else
    some (.error (.logicError "Future is broken"))

def getExecutor (f : Future ε α ξ) (states : Nat → FutureState ε α κ ξ γ) : Option ξ :=
  match f.source with
  | .shared a => (states a).executor_
  | .own      => f.local_state_.executor_

end Future

-- A future of the program, that a thread may be blocked on in `Wait`.
structure Handle (ε α ξ : Type) extends Future ε α ξ where
  waiting : Bool
  deriving DecidableEq, Repr

structure Config (ε α κ ξ γ : Type) where
  handles : List (Handle ε α ξ)
  states  : Nat → FutureState ε α κ ξ γ
  fresh   : Nat
  ledger  : Ledger

-- What a function given to `ThenTry` or `ThenValue` does: it returns a value, so that `MakeTryCall` makes
-- a `Try` of its outcome, or a future, of which it makes the returned one by a move (that throws
-- `thrown`, if at all), or it is to return a future and throws.
inductive Returned (ε α : Type)
  | value  (t : TryObject ε α)
  | future (other : Nat) (thrown : ε)
  | throws (e : ε)

inductive Action (ε α κ ξ γ : Type)
  | ofState         (a : Option Nat)
  | ofTry           (t : TryObject ε α) (move : α → Option α × α)
  | move            (other : Nat) (move : α → Option α × α)
  | moveAssign      (this other : Nat) (moves : SwapMoves α)
  | via             (this : Nat) (executor : Option ξ) (move : α → Option α × α)
  | wait            (this : Nat) (func : κ) (inExecutor : Bool)
  | wake            (this : Nat) (moves : SwapMoves α)
  -- The function is given the local `Try`, of which it leaves `left`.
  | setContinuation (this : Nat) (func : κ) (left : TryObject ε α)
  | thenImpl        (this : Nat) (func : κ) (left : TryObject ε α) (returned : Returned ε α)
    (move : α → Option α × α)
  -- A promise, an executor or a continuation changes a shared state.
  | setState        (a : Nat) (fs : FutureState ε α κ ξ γ)

namespace Config

-- The future at this handle, if no thread is blocked on it.
def handle (s : Config ε α κ ξ γ) (i : Nat) : Option (Handle ε α ξ) :=
  s.handles[i]?.bind fun f => if f.waiting then none else some f

def add (s : Config ε α κ ξ γ) (f : Future ε α ξ) : Config ε α κ ξ γ :=
  { s with handles := s.handles ++ [{ toFuture := f, waiting := false }] }

def set (s : Config ε α κ ξ γ) (i : Nat) (f : Future ε α ξ) : Config ε α κ ξ γ :=
  { s with handles := s.handles.set i { toFuture := f, waiting := false } }

def setState (s : Config ε α κ ξ γ) (a : Nat) (fs : FutureState ε α κ ξ γ) : Config ε α κ ξ γ :=
  { s with states := Function.update s.states a fs }

def setLedger (s : Config ε α κ ξ γ) (l : Ledger) : Config ε α κ ξ γ :=
  { s with ledger := l }

def ofTry (s : Config ε α κ ξ γ) (t : TryObject ε α) (move : α → Option α × α) : Config ε α κ ξ γ :=
  let m : Option (Future ε α ξ) × Ledger := Future.ofTry t move s.ledger
  m.1.elim (s.setLedger m.2) (s.setLedger m.2).add

def move (s : Config ε α κ ξ γ) (other : Nat) (f : Future ε α ξ) (move : α → Option α × α) : Config ε α κ ξ γ :=
  let m := f.moveConstruct move s.ledger
  let s := (s.set other m.2.1).setLedger m.2.2
  m.1.elim s s.add

def moveAssign (s : Config ε α κ ξ γ) (this other : Nat) (moves : SwapMoves α) : Option (Config ε α κ ξ γ) :=
  (s.handle this).bind fun f =>
    (s.handle other).map fun g =>
      if this = other then s
      else
        let m := f.moveAssign g.toFuture moves s.ledger
        ((s.set this m.1).set other m.2.1).setLedger m.2.2

def setExecutor (s : Config ε α κ ξ γ) (this : Nat) (f : Future ε α ξ) (executor : Option ξ) : Config ε α κ ξ γ :=
  match f.source with
  | .shared a => s.setState a { s.states a with executor_ := executor }
  | .own      => s.set this { f with local_state_ := { f.local_state_ with executor_ := executor } }

def via (s : Config ε α κ ξ γ) (this : Nat) (executor : Option ξ) (move : α → Option α × α) :
    Option (Config ε α κ ξ γ) :=
  (s.handle this).bind fun f =>
    let s := s.setExecutor this f.toFuture executor
    (s.handle this).map fun f => s.move this f.toFuture move

-- `Wait` throws when the future is not valid, and does nothing when the result is there. It does not go
-- on when it dereferences null or its assertion fails.
def wait (s : Config ε α κ ξ γ) (this : Nat) (func : κ) (inExecutor : Bool) : Option (Config ε α κ ξ γ) :=
  (s.handle this).bind fun f =>
    if f.valid then
      (f.hasResult s.states).bind fun r =>
        if r then some s
        else
          f.shared_state_.bind fun a =>
            let fs := s.states a
            if fs.executor_.isSome && inExecutor then none
            else
              match (fs.setExecutor none).setContinuation func with
              | .ok r    => some { s.setState a r.1 with handles := s.handles.set this { f with waiting := true } }
              | .error _ => some (s.setState a (fs.setExecutor none))
    else
      some s

-- The future of the promise that `Wait` has made is assigned.
def wake (s : Config ε α κ ξ γ) (this : Nat) (moves : SwapMoves α) : Option (Config ε α κ ξ γ) :=
  s.handles[this]?.bind fun f =>
    if f.waiting then
      let m := f.toFuture.moveAssign (.ofState (some s.fresh)) moves s.ledger
      some { (s.set this m.1).setLedger m.2.2 with fresh := s.fresh + 1 }
    else
      none

-- The assertion of `SetContinuation` is that the future is valid.
def setContinuation (s : Config ε α κ ξ γ) (this : Nat) (func : κ) (left : TryObject ε α) :
    Option (Config ε α κ ξ γ) :=
  (s.handle this).bind fun f =>
    if f.valid then
      match f.source with
      | .shared a =>
        match (s.states a).setContinuation func with
        | .ok r    => some (s.setState a r.1)
        | .error _ => some s
      | .own => some (s.set this { f with local_state_ := { f.local_state_ with try_value_ := left } })
    else
      none

def exceptional (s : Config ε α κ ξ γ) (e : ε) : Config ε α κ ξ γ :=
  let t : TryObject ε α × Ledger := TryObject.ofException (some e) s.ledger
  (s.setLedger t.2).add { shared_state_ := none, local_state_ := { try_value_ := t.1, executor_ := none } }

-- The future that `ThenImpl` returns for a local result gets the executor of this one: in any case if
-- the function returns a value, and if it has none if the function returns a future.
def returned (s : Config ε α κ ξ γ) (r : Returned ε α) (executor : Option ξ) (move : α → Option α × α) :
    Config ε α κ ξ γ :=
  let n := s.handles.length
  match r with
  | .value t =>
    let s := s.ofTry t move
    (s.handle n).elim s fun f => s.setExecutor n f.toFuture executor
  | .future j thrown =>
    (s.handle j).elim s fun f =>
      let s := s.move j f.toFuture move
      (s.handle n).elim (s.exceptional thrown) fun f =>
        if (f.getExecutor s.states).isNone then s.setExecutor n f.toFuture executor else s
  | .throws e => s.exceptional e

def thenImpl (s : Config ε α κ ξ γ) (this : Nat) (func : κ) (left : TryObject ε α) (r : Returned ε α)
    (move : α → Option α × α) : Option (Config ε α κ ξ γ) :=
  (s.handle this).map fun f =>
    if f.valid then
      match f.source with
      | .own =>
        (s.set this { f with local_state_ := { f.local_state_ with try_value_ := left } }).returned r
          f.local_state_.executor_ move
      | .shared a =>
        -- The shared state of a new promise.
        let fs : FutureState ε α κ ξ γ := FutureState.new
        let s := { s.setState s.fresh { fs with executor_ := (s.states a).executor_ } with fresh := s.fresh + 1 }
        match (s.states a).setContinuation func with
        | .ok r    => (s.setState a r.1).add (.ofState (some (s.fresh - 1)))
        | .error _ => s
    else
      s

end Config

def step (s : Config ε α κ ξ γ) : Action ε α κ ξ γ → Option (Config ε α κ ξ γ)
  | .ofState a                      => some (s.add (.ofState a))
  | .ofTry t move                   => some (s.ofTry t move)
  | .move other move                => (s.handle other).map fun f => s.move other f.toFuture move
  | .moveAssign this other moves    => s.moveAssign this other moves
  | .via this executor move         => s.via this executor move
  | .wait this func inExecutor      => s.wait this func inExecutor
  | .wake this moves                => s.wake this moves
  | .setContinuation this func left => s.setContinuation this func left
  | .thenImpl this func left r move => s.thenImpl this func left r move
  | .setState a fs                  => some (s.setState a fs)

def system : System (Config ε α κ ξ γ) (Action ε α κ ξ γ) where
  init := {
    handles  := []
    states _ := .new
    fresh    := 0
    ledger   := { constructed := 0, destroyed := [], fault := false }
  }
  step := step

-- Whether this is an assignment to a ready future from one with a shared state, in which the swap
-- throws at once.
def Action.throwsBetween (s : Config ε α κ ξ γ) : Action ε α κ ξ γ → Bool
  | .moveAssign this other moves =>
    this != other && (s.handle this).any (·.local_state_.try_value_.throws moves.save) &&
      (s.handle other).any (·.shared_state_.isSome)
  | _ => false

end Sources
end AsyncSimple
