import AsyncSimple.Lib.Transition
import AsyncSimple.Sync.Callback
import Mathlib.Logic.Function.Basic

open Transition

namespace AsyncSimple
namespace Nested

-- A future that a callback returns: with a local state, or with a shared one, to which a continuation
-- may already have been attached.
inductive Returned (ε α : Type)
  | localState (r : Except (Exception ε) α)
  | ready      (r : Except (Exception ε) α)
  | pending    (fate : Fate ε α)
  | attached

inductive Func (ρ ε α : Type)
  | value  (f : ρ → Except (Exception ε) α)
  | future (f : ρ → Except (Exception ε) (Returned ε α))

inductive Callback (ε α : Type)
  | thenTry   (f : Func (Try ε α) ε α)
  | thenValue (f : Func α ε α)

-- How a call ends. An exception that leaves the destructor of a promise terminates the program.
inductive Exit (ε : Type)
  | returned
  | threw (x : Exception ε)
  | terminated
  deriving DecidableEq, Repr

-- What a chain of futures waits for: for its source, for a task that runs the continuation of future
-- number `p` or the one of the future that callback `j` has returned, or for the promise of this future.
inductive Next (ε α : Type)
  | source
  | queued  (p : Nat)
  | pending (j : Nat) (fate : Fate ε α)
  | relay   (j : Nat) (t : Try ε α)
  | nothing

-- The functions tell whether the executor of a future runs its continuation later. Otherwise there is no
-- executor, or the continuation runs at once.
structure Setup (ε α : Type) where
  source      : Except (Exception ε) α
  callbacks   : List (Callback ε α)
  schedules   : Nat → Bool
  schedulesIn : Nat → Bool

-- The number of callbacks that have been attached, and the results of the futures. No step reads the
-- last field, which tells how the calls of `SetValue` or `SetException` on the source have ended.
structure Config (ε α : Type) where
  attached   : Nat
  results    : Nat → Option (Try ε α)
  next       : Next ε α
  terminated : Bool
  exits      : List (Exit ε)

inductive Action
  -- A call of `ThenTry` or `ThenValue` for the next callback.
  | attach
  -- The promise of the source is used, or that of a future that a callback has returned.
  | fulfil
  | fulfilReturned
  | runTask

variable {ρ σ ε α : Type}

def Func.precompose (g : σ → Except (Exception ε) ρ) : Func ρ ε α → Func σ ε α
  | value f  => value fun x => g x >>= f
  | future f => future fun x => g x >>= f

def Callback.func : Callback ε α → Func (Try ε α) ε α
  | thenTry f   => f
  | thenValue f => f.precompose Try.getValue

-- The handler in `ThenImpl` uses the promise after it has been moved into the continuation of the
-- returned future.
def Exit.handled : Exit ε → Exit ε
  | threw _ => threw (.logicError "Promise is broken")
  | exit    => exit

-- The continuation is rejected and destroyed, with the promise that has been moved into it.
def Exit.rejected : Exit ε → Exit ε
  | returned => threw (.logicError "Promise is broken")
  | _        => terminated

def brokenPromise : Try ε α :=
  .exception (.runtimeError "Promise is broken")

-- What the continuation of future number `p` does for a callback, where `set` is `SetResult` of the
-- next future.
def continuation (set : Try ε α → Config ε α → Config ε α × Exit ε) (c : Callback ε α) (p : Nat) (t : Try ε α)
    (s : Config ε α) : Config ε α × Exit ε :=
  match c.func with
  | .value f  => set (.makeTryCall (f t)) s
  | .future f =>
    match f t with
    | .error x => set (.exception x) s
    | .ok (.localState r) | .ok (.ready r) =>
      let (s, exit) := set (.makeTryCall r) s
      (s, exit.handled)
    | .ok (.pending fate) => ({ s with next := .pending p fate }, .returned)
    | .ok .attached =>
      let (s, exit) := set brokenPromise s
      (s, exit.rejected)

-- `SetResult` of future number `p`, which is followed by these callbacks.
def setResult (m : Setup ε α) : List (Callback ε α) → Nat → Try ε α → Config ε α → Config ε α × Exit ε
  | cs, p, t, s =>
    if (s.results p).isSome then
      (s, .threw (.logicError "FutureState already has a result"))
    else
      let s := { s with results := Function.update s.results p (some t) }
      match cs with
      | []      => (s, .returned)
      | c :: cs =>
        if p < s.attached then
          if m.schedules p then
            ({ s with next := .queued p }, .returned)
          else
            continuation (setResult m cs (p + 1)) c p t s
        else
          (s, .returned)

namespace Setup

def setResult (m : Setup ε α) (p : Nat) : Try ε α → Config ε α → Config ε α × Exit ε :=
  Nested.setResult m (m.callbacks.drop p) p

-- The continuation of a future that has a result.
def continuation (m : Setup ε α) (p : Nat) (s : Config ε α) : Option (Config ε α × Exit ε) :=
  match m.callbacks[p]?, s.results p with
  | some c, some t => Nested.continuation (m.setResult (p + 1)) c p t s
  | _, _           => none

end Setup

-- The state after a call that does not belong to another one.
def ended (r : Config ε α × Exit ε) : Config ε α :=
  match r.2 with
  | .terminated => { r.1 with terminated := true }
  | _           => r.1

namespace Setup

def init : Config ε α where
  attached   := 0
  results _  := none
  next       := .source
  terminated := false
  exits      := []

-- If the last future has a result, then the continuation runs in the call of `ThenTry` or `ThenValue`.
def attach (m : Setup ε α) (s : Config ε α) : Option (Config ε α) :=
  if s.attached < m.callbacks.length then
    let p := s.attached
    let s := { s with attached := p + 1 }
    match s.results p with
    | some _ => (m.continuation p s).map ended
    | none   => some s
  else
    none

def fulfil (m : Setup ε α) (s : Config ε α) : Option (Config ε α) :=
  match s.next with
  | .source =>
    let (s, exit) := m.setResult 0 (.makeTryCall m.source) { s with next := .nothing }
    some (ended ({ s with exits := s.exits ++ [exit] }, exit))
  | _ => none

def fulfilReturned (m : Setup ε α) (s : Config ε α) : Option (Config ε α) :=
  match s.next with
  | .pending j fate =>
    let t := .makeTryCall fate.outcome
    if m.schedulesIn j then
      some { s with next := .relay j t }
    else
      some (ended (m.setResult (j + 1) t { s with next := .nothing }))
  | _ => none

def runTask (m : Setup ε α) (s : Config ε α) : Option (Config ε α) :=
  match s.next with
  | .queued p  => (m.continuation p { s with next := .nothing }).map ended
  | .relay j t => some (ended (m.setResult (j + 1) t { s with next := .nothing }))
  | _          => none

def system (m : Setup ε α) : System (Config ε α) Action where
  init := init
  step s a :=
    if s.terminated then
      none
    else
      match a with
      | .attach         => m.attach s
      | .fulfil         => m.fulfil s
      | .fulfilReturned => m.fulfilReturned s
      | .runTask        => m.runTask s

end Setup
end Nested
end AsyncSimple
