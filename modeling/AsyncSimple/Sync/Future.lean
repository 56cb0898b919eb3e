import AsyncSimple.Sync.Chain

open Transition

namespace AsyncSimple

variable {ε α ξ : Type}

-- What a move leaves behind, where `moved` gives what a move of a value leaves behind.
def Try.moved (moved : α → α) : Try ε α → Try ε α
  | value v => value (moved v)
  | t       => t

namespace LocalState

def new (t : Try ε α) : LocalState ε α ξ where
  try_value_ := t
  executor_  := none

def hasResult (l : LocalState ε α ξ) : Bool :=
  l.try_value_.available

-- What move construction leaves behind.
def moved (moved : α → α) (l : LocalState ε α ξ) : LocalState ε α ξ where
  try_value_ := l.try_value_.moved moved
  executor_  := none

end LocalState

structure Future (ε α ξ : Type) where
  shared_state_ : Option Nat
  local_state_  : LocalState ε α ξ

namespace Future

inductive Call
  | get
  | wait
  | result
  | thenImpl
  deriving DecidableEq, Repr

def ofState (a : Nat) : Future ε α ξ where
  shared_state_ := some a
  local_state_  := .new .nothing

def ofTry (t : Try ε α) : Future ε α ξ where
  shared_state_ := none
  local_state_  := .new t

def valid (f : Future ε α ξ) : Bool :=
  f.shared_state_.isSome || f.local_state_.hasResult

-- What move construction leaves behind. The new future is as `other` has been.
def moved (moved : α → α) (other : Future ε α ξ) : Future ε α ξ where
  shared_state_ := none
  local_state_  := other.local_state_.moved moved

-- What move assignment to another future leaves behind: the local states are swapped. The future
-- `this` becomes as `other` has been.
def assigned (this : Future ε α ξ) : Future ε α ξ where
  shared_state_ := none
  local_state_  := this.local_state_

-- The assertion that each of these functions begins with.
def check (f : Future ε α ξ) (c : Call) : Except (Exception ε) Unit :=
  if f.valid then
    .ok ()
  else
    match c with
    | .get | .wait        => .error (.logicError "Future is borken")
    | .result | .thenImpl => .error (.logicError "Future is broken")

end Future

namespace Owners

-- The number of a future that `MakeReadyFuture` or `GetFuture` has returned, and the handle through
-- which `Get` has delivered its result.
structure Tag where
  future : Nat
  asked  : Option Nat
  deriving DecidableEq, Repr

-- A future of the program, that `Wait` may be blocked on (in `Get`, if this is set). No operation reads
-- the fields from `tag` on: the tag of the local state, and whether the future has been moved from since
-- it was last assigned.
structure Handle (ε α ξ : Type) extends Future ε α ξ where
  waiting   : Option Bool
  tag       : Tag
  movedFrom : Bool

-- No operation reads the tag. The only continuations are those of `Wait`.
structure Shared (ε α ξ : Type) extends FutureState ε α Unit ξ Empty where
  tag : Tag

structure Promise where
  shared_state_ : Nat
  has_future_   : Bool
  deriving DecidableEq, Repr

-- No operation reads the last two fields: the results that `Get` has delivered, with the handles, and
-- what the calls on invalid futures have thrown.
structure Config (ε α ξ : Type) where
  handles   : List (Handle ε α ξ)
  states    : Nat → Shared ε α ξ
  fresh     : Nat
  promises  : List Promise
  given     : Nat
  delivered : List (Nat × Nat)
  refused   : List (Exception ε)

inductive Action (ε α ξ : Type)
  | newPromise
  | makeReadyFuture (t : Try ε α)
  | getFuture       (promise : Nat)
  | setValue        (promise : Nat) (t : Try ε α)
  | move            (other : Nat)
  | moveAssign      (this other : Nat)
  | via             (this : Nat) (executor : Option ξ)
  | call            (this : Nat) (c : Future.Call) (inExecutor : Bool)
  -- `Wait` goes on, since the result is there.
  | wake            (this : Nat)

namespace Handle

def new (f : Future ε α ξ) (tag : Tag) : Handle ε α ξ where
  toFuture  := f
  waiting   := none
  tag       := tag
  movedFrom := false

end Handle

namespace Config

def add (s : Config ε α ξ) (e : Handle ε α ξ) : Config ε α ξ :=
  { s with handles := s.handles ++ [e] }

def set (s : Config ε α ξ) (i : Nat) (e : Handle ε α ξ) : Config ε α ξ :=
  { s with handles := s.handles.set i e }

def setState (s : Config ε α ξ) (a : Nat) (fs : Shared ε α ξ) : Config ε α ξ :=
  { s with states := Function.update s.states a fs }

-- The future at this handle, if no thread is blocked on it.
def handle (s : Config ε α ξ) (i : Nat) : Option (Handle ε α ξ) :=
  s.handles[i]?.bind fun e => if e.waiting.isNone then some e else none

-- The tag of the result that a future holds.
def tagOf (s : Config ε α ξ) (e : Handle ε α ξ) : Option Tag :=
  match e.shared_state_ with
  | some a => some (s.states a).tag
  | none   => if e.local_state_.hasResult then some e.tag else none

def hasResult (s : Config ε α ξ) (e : Handle ε α ξ) : Bool :=
  e.local_state_.hasResult || e.shared_state_.any fun a => (s.states a).hasResult

def newPromise (s : Config ε α ξ) : Config ε α ξ :=
  { s.setState s.fresh { toFutureState := .new, tag := ⟨0, none⟩ } with
    fresh    := s.fresh + 1
    promises := s.promises ++ [⟨s.fresh, false⟩] }

def makeReadyFuture (s : Config ε α ξ) (t : Try ε α) : Config ε α ξ :=
  { s.add (.new (.ofTry t) ⟨s.given, none⟩) with given := s.given + 1 }

def getFuture (s : Config ε α ξ) (promise : Nat) : Option (Config ε α ξ) :=
  match s.promises[promise]? with
  | some ⟨a, false⟩ =>
    some { (s.setState a { s.states a with tag := ⟨s.given, none⟩ }).add (.new (.ofState a) ⟨0, none⟩) with
      promises := s.promises.set promise ⟨a, true⟩
      given    := s.given + 1 }
  | some ⟨_, true⟩ => some s
  | none           => none

-- If `SetResult` completes a pair with the continuation of `Wait`, this runs at once, because `Wait` has
-- set the executor to null. It takes the result, for the thread that waits.
def setValue (s : Config ε α ξ) (promise : Nat) (t : Try ε α) : Option (Config ε α ξ) :=
  match s.promises[promise]? with
  | some ⟨a, _⟩ =>
    match (s.states a).setResult t with
    | .ok (fs, _) => some (s.setState a { s.states a with toFutureState := fs })
    | .error _    => some s
  | none => none

def move (moved : α → α) (s : Config ε α ξ) (other : Nat) (e : Handle ε α ξ) : Config ε α ξ :=
  (s.set other { e with toFuture := e.moved moved, movedFrom := true }).add { e with movedFrom := false }

def moveAssign (s : Config ε α ξ) (this other : Nat) : Option (Config ε α ξ) :=
  match s.handle this, s.handle other with
  | some e, some f =>
    if this = other then
      some s
    else
      some ((s.set this { f with movedFrom := false }).set other
        { f with toFuture := e.assigned, tag := e.tag, movedFrom := true })
  | _, _ => none

def setExecutor (s : Config ε α ξ) (this : Nat) (e : Handle ε α ξ) (executor : Option ξ) : Config ε α ξ :=
  match e.shared_state_ with
  | some a => s.setState a { s.states a with executor_ := executor }
  | none   => s.set this { e with local_state_ := { e.local_state_ with executor_ := executor } }

def via (moved : α → α) (s : Config ε α ξ) (this : Nat) (executor : Option ξ) : Option (Config ε α ξ) :=
  (s.handle this).bind fun e =>
    let s := s.setExecutor this e executor
    (s.handle this).map fun e => s.move moved this e

-- `Value` of a future that is ready returns its value, or throws.
def deliver (moved : α → α) (s : Config ε α ξ) (this : Nat) (e : Handle ε α ξ) : Config ε α ξ :=
  let t := s.tagOf e
  let s := match e.shared_state_ with
    | some a =>
      let fs := s.states a
      s.setState a { fs with try_value_ := fs.try_value_.moved moved, tag := { fs.tag with asked := some this } }
    | none =>
      let l := e.local_state_
      s.set this { e with
        local_state_ := { l with try_value_ := l.try_value_.moved moved }
        tag          := { e.tag with asked := some this } }
  { s with delivered := (t.toList.map fun t => (this, t.future)) ++ s.delivered }

-- The part of `Wait` in front of the semaphore.
def block (s : Config ε α ξ) (this : Nat) (e : Handle ε α ξ) (get inExecutor : Bool) : Option (Config ε α ξ) :=
  match e.shared_state_ with
  | none   => none
  | some a =>
    let fs := s.states a
    -- Here, the assertion that the current thread is not in the executor fails.
    if fs.executor_.isSome && inExecutor then
      none
    else
      match (fs.setExecutor none).setContinuation () with
      | .ok (fs', _) => some ((s.setState a { fs with toFutureState := fs' }).set this { e with waiting := some get })
      | .error _     => some (s.setState a { fs with executor_ := none })

-- A call on a future that is valid. A call of `ThenTry` or `ThenValue` takes the result, too; the histories
-- that are considered here have no such call.
def call (moved : α → α) (s : Config ε α ξ) (this : Nat) (c : Future.Call) (inExecutor : Bool) :
    Option (Config ε α ξ) :=
  (s.handle this).bind fun e =>
    match e.check c with
    | .error x => some { s with refused := x :: s.refused }
    | .ok _    =>
      match c with
      | .get      => if s.hasResult e then some (s.deliver moved this e) else s.block this e true inExecutor
      | .wait     => if s.hasResult e then some s else s.block this e false inExecutor
      | .result   => some s
      | .thenImpl => none

-- The promise that `Wait` has made and its future are not known to anyone else, so that they are made
-- here, with the result that the continuation has moved there.
def wake (moved : α → α) (s : Config ε α ξ) (this : Nat) : Option (Config ε α ξ) :=
  s.handles[this]?.bind fun e =>
    match e.waiting, e.shared_state_ with
    | some get, some a =>
      let fs := s.states a
      if fs.hasResult then
        let own : FutureState ε α Unit ξ Empty := FutureState.new
        let own := { own with state_ := .kOnlyResult, try_value_ := fs.try_value_ }
        let e := { e with toFuture := .ofState s.fresh, waiting := none, movedFrom := false }
        let s := ({ s with fresh := s.fresh + 1 }.setState s.fresh ⟨own, fs.tag⟩).set this e
        some (if get then s.deliver moved this e else s)
      else
        none
    | _, _ => none

end Config

def step (moved : α → α) (s : Config ε α ξ) : Action ε α ξ → Option (Config ε α ξ)
  | .newPromise             => some s.newPromise
  | .makeReadyFuture t      => some (s.makeReadyFuture t)
  | .getFuture promise      => s.getFuture promise
  | .setValue promise t     => s.setValue promise t
  | .move other             => (s.handle other).map fun e => s.move moved other e
  | .moveAssign this other  => s.moveAssign this other
  | .via this executor      => s.via moved this executor
  | .call this c inExecutor => s.call moved this c inExecutor
  | .wake this              => s.wake moved this

-- The function `moved` gives the value that a move of a value leaves behind.
def system (moved : α → α) : System (Config ε α ξ) (Action ε α ξ) where
  init := {
    handles   := []
    states _  := { toFutureState := .new, tag := ⟨0, none⟩ }
    fresh     := 0
    promises  := []
    given     := 0
    delivered := []
    refused   := []
  }
  step := step moved

end Owners
end AsyncSimple
