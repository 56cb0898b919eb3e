import AsyncSimple.Lib.Transition
import AsyncSimple.Sync.FutureState
import AsyncSimple.Sync.Callback
import Mathlib.Logic.Function.Basic
import Mathlib.Data.Fintype.Sum
import Mathlib.Tactic.DeriveFintype

open Transition

namespace AsyncSimple

structure LocalState (ε α ξ : Type) where
  try_value_ : Try ε α
  executor_  : Option ξ
  deriving DecidableEq, Repr

namespace Chain

-- The shared states of a chain: that of its future number `p`, and that of the future returned by
-- callback `j`, in case callback `j` is attached to a shared state.
inductive Slot (n : Nat)
  | future   (p : Fin (n + 1))
  | returned (j : Fin n)
  deriving DecidableEq, Fintype

inductive Cont (n : Nat)
  -- The continuation that `ThenImpl` sets for callback `j`.
  | thenImpl (j : Fin n)
  -- The one that it sets on the future that this callback has returned.
  | relay (j : Fin n)
  deriving DecidableEq

-- The next step of what follows once a shared state is done: `ScheduleContinuation`, and then the
-- continuation. Callback `j` has the promise of future `j + 1`.
inductive Pc (n : Nat) (ε α : Type)
  | idle
  | schedule (triggerByContinuation : Bool)
  | submit
  | queued
  | call
  | setResult (j : Fin n) (t : Try ε α)
  | setContinuation (j : Fin n)
  | finished

structure Setup (n : Nat) (ε α ξ : Type) where
  unit      : α
  initial   : Fut ε α ξ
  callbacks : Fin n → Callback ε α ξ

-- The last future is number `attached`, and it is a local one if `localState` is not `none`. The
-- promises held by the user that have not been used yet are in `promise`. The last two fields are a
-- record of the run, which no step reads: the functions of the user that have been invoked, and the
-- number of callbacks that have been called.
structure Config (n : Nat) (ε α ξ : Type) where
  attached   : Fin (n + 1)
  localState : Option (LocalState ε α ξ)
  state      : Slot n → FutureState ε α (Cont n) ξ Empty
  promise    : Slot n → Option (Fate ε α)
  pc         : Slot n → Pc n ε α
  log        : List Nat
  called     : Fin (n + 1)

inductive Action (n : Nat) (ξ : Type)
  -- A call of `ThenTry` or `ThenValue` for the next callback, after a call of `Via` or without one.
  | attach (via : Option (Option ξ))
  -- The user sets the result of a promise, or drops the promise.
  | fulfil (x : Slot n)
  -- The next step at a shared state, with the answers of its executor, which runs each task that it
  -- has accepted once. It does answer: neither its functions nor a move of `T` throw.
  | step (x : Slot n) (inExecutor accept : Bool)

variable {n : Nat} {ε α ξ : Type}

namespace Config

def goto (s : Config n ε α ξ) (x : Slot n) (pc : Pc n ε α) : Config n ε α ξ :=
  { s with pc := Function.update s.pc x pc }

def setState (s : Config n ε α ξ) (x : Slot n) (fs : FutureState ε α (Cont n) ξ Empty) : Config n ε α ξ :=
  { s with state := Function.update s.state x fs }

-- `SetResult` and `SetContinuation` are atomic, as the protocol between them permits.

def setResult (s : Config n ε α ξ) (x : Slot n) (t : Try ε α) : Option (Config n ε α ξ) :=
  match (s.state x).setResult t with
  | .ok (fs, true)  => some ((s.setState x fs).goto x (.schedule false))
  | .ok (fs, false) => some (s.setState x fs)
  | .error _        => none

def setContinuation (s : Config n ε α ξ) (x : Slot n) (c : Cont n) : Option (Config n ε α ξ) :=
  match (s.state x).setContinuation c with
  | .ok (fs, true)  => some ((s.setState x fs).goto x (.schedule true))
  | .ok (fs, false) => some (s.setState x fs)
  | .error _        => none

-- A shared state that has been made outside of the chain.
def share (s : Config n ε α ξ) (x : Slot n) (fate : Fate ε α) (early : Bool) (executor : Option ξ) :
    Config n ε α ξ :=
  let fs : FutureState ε α (Cont n) ξ Empty := FutureState.new.setExecutor executor
  if early then
    { s.setState x { fs with state_ := .kOnlyResult, try_value_ := .makeTryCall fate.outcome } with
      promise := Function.update s.promise x none }
  else
    { s.setState x fs with promise := Function.update s.promise x (some fate) }

-- Future number `p` is one that comes from outside of the chain.
def adopt (s : Config n ε α ξ) (p : Fin (n + 1)) : Fut ε α ξ → Config n ε α ξ
  | .localState r executor           => { s with localState := some ⟨.makeTryCall r, executor⟩ }
  | .sharedState fate early executor => { s.share (.future p) fate early executor with localState := none }

def call (s : Config n ε α ξ) (c : Callback ε α ξ) (j : Fin n) (t : Try ε α) : Config n ε α ξ :=
  { s with
    log    := if c.invokes t then s.log ++ [j.val] else s.log
    called := j.succ }

def via (s : Config n ε α ξ) : Option (Option ξ) → Config n ε α ξ
  | none          => s
  | some executor =>
    match s.localState with
    | some l => { s with localState := some { l with executor_ := executor } }
    | none   => s.setState (.future s.attached) ((s.state (.future s.attached)).setExecutor executor)

-- The result of the last future.
def result (s : Config n ε α ξ) : Option (Try ε α) :=
  match s.localState with
  | some l => some l.try_value_
  | none   =>
    let fs := s.state (.future s.attached)
    if fs.hasResult then some fs.try_value_ else none

end Config

namespace Setup

def init (m : Setup n ε α ξ) : Config n ε α ξ :=
  let s : Config n ε α ξ := {
    attached   := 0
    localState := none
    state _    := .new
    promise _  := none
    pc _       := .idle
    log        := []
    called     := 0
  }
  s.adopt 0 m.initial

-- The path of both overloads of `ThenImpl` for a local state.
def thenLocal (m : Setup n ε α ξ) (s : Config n ε α ξ) (j : Fin n) (l : LocalState ε α ξ) : Config n ε α ξ :=
  let t := l.try_value_
  let s := { s.call (m.callbacks j) j t with attached := j.succ }
  match (m.callbacks j).func with
  | .value f => { s with localState := some ⟨.makeTryCall (f t), l.executor_⟩ }
  | .void f  => { s with localState := some ⟨.ofVoid m.unit (.makeTryCall (f t)), l.executor_⟩ }
  | .future f =>
    match f t with
    | .ok (.localState r executor) => s.adopt j.succ (.localState r (executor.or l.executor_))
    | .ok (.sharedState fate early executor) =>
      s.adopt j.succ (.sharedState fate early (executor.or l.executor_))
    | .error x => { s with localState := some ⟨.exception x, none⟩ }

-- The path for a shared state.
def thenShared (s : Config n ε α ξ) (j : Fin n) : Option (Config n ε α ξ) :=
  let executor := (s.state (.future j.castSucc)).executor_
  { s with attached := j.succ }.setState (.future j.succ) (FutureState.new.setExecutor executor)
    |>.setContinuation (.future j.castSucc) (.thenImpl j)

def attach (m : Setup n ε α ξ) (s : Config n ε α ξ) (via : Option (Option ξ)) : Option (Config n ε α ξ) :=
  if h : s.attached.val < n then
    let j : Fin n := ⟨s.attached, h⟩
    let s := s.via via
    match s.localState with
    | some l => some (m.thenLocal s j l)
    | none   => thenShared s j
  else
    none

def fulfil (s : Config n ε α ξ) (x : Slot n) : Option (Config n ε α ξ) :=
  match s.promise x with
  | some fate => { s with promise := Function.update s.promise x none }.setResult x (.makeTryCall fate.outcome)
  | none      => none

-- `continuation_(std::move(try_value_))`
def callContinuation (m : Setup n ε α ξ) (s : Config n ε α ξ) (x : Slot n) : Option (Config n ε α ξ) :=
  let t := (s.state x).try_value_
  match (s.state x).continuation_ with
  | none => none
  | some (.thenImpl j) =>
    let s := s.call (m.callbacks j) j t
    match (m.callbacks j).func with
    | .value f  => s.goto x (.setResult j (.makeTryCall (f t)))
    | .void f   => s.goto x (.setResult j (.ofVoid m.unit (.makeTryCall (f t))))
    | .future f =>
      match f t with
      | .ok (.localState r _) => s.goto x (.setResult j (.makeTryCall r))
      | .ok (.sharedState fate early executor) =>
        (s.share (.returned j) fate early executor).goto x (.setContinuation j)
      | .error x' => s.goto x (.setResult j (.exception x'))
  | some (.relay j) => s.goto x (.setResult j t)

def stepSlot (m : Setup n ε α ξ) (s : Config n ε α ξ) (x : Slot n) (inExecutor accept : Bool) :
    Option (Config n ε α ξ) :=
  match s.pc x with
  | .schedule triggerByContinuation =>
    if (s.state x).runsInline triggerByContinuation inExecutor then
      s.goto x .call
    else
      s.goto x .submit
  | .submit =>
    match (s.state x).submission with
    | none   => none
    | some _ => if accept then s.goto x .queued else s.goto x .call
  | .queued            => s.goto x .call
  | .call              => m.callContinuation s x
  | .setResult j t     => (s.goto x .finished).setResult (.future j.succ) t
  | .setContinuation j => (s.goto x .finished).setContinuation (.returned j) (.relay j)
  | .idle | .finished  => none

def system (m : Setup n ε α ξ) : System (Config n ε α ξ) (Action n ξ) where
  init := m.init
  step s
    | .attach via               => m.attach s via
    | .fulfil x                 => fulfil s x
    | .step x inExecutor accept => m.stepSlot s x inExecutor accept

end Setup
end Chain
end AsyncSimple
