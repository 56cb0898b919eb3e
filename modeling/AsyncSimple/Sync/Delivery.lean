import AsyncSimple.Sync.Dispatch
import AsyncSimple.Sync.Rendezvous

open Transition

namespace AsyncSimple
namespace Delivery

-- What the virtual functions of an executor answer in a call, where those other than `Schedule` may be
-- left at their defaults.
structure Virtuals (ε : Type) where
  schedule                : Except (Exception ε) Bool
  currentThreadInExecutor : Option (Except (Exception ε) Bool)
  checkin                 : Option (Except (Exception ε) Bool)

-- The argument `move` is what the move construction of T, or the construction of `continuation_` from the
-- function, throws, if it does.
inductive Call (ε α κ : Type)
  | setResult       (value : Try ε α) (move : Option (Exception ε))
  | setContinuation (func : κ) (move : Option (Exception ε))

-- What `ScheduleContinuation` and its callers end with: the state, what has become of the continuation
-- and what is thrown.
structure Outcome (ε α κ ξ γ : Type) where
  fs      : FutureState ε α κ ξ γ
  handoff : Option (Rendezvous.Handoff ξ γ)
  thrown  : Option (Exception ε)

structure Config (ε α κ ξ γ : Type) where
  fs       : FutureState ε α κ ξ γ
  handoffs : List (Rendezvous.Handoff ξ γ)

-- The operations on a shared state, each running on its own. A call comes with the answers of the
-- executors, and with what the continuation throws, if it does, in case it is run by the call.
inductive Op (ε α κ ξ γ : Type)
  | setExecutor (executor : Option ξ)
  | checkout    (context : Option γ)
  | forceScheduled
  | call        (c : Call ε α κ) (answers : ξ → Virtuals ε) (body : Option (Exception ε))

variable {ε α κ ξ γ : Type}

namespace Virtuals

def inExecutor (v : Virtuals ε) : Except (Exception ε) Bool :=
  v.currentThreadInExecutor.getD (.error (.logicError "Not implemented"))

-- By default, `Checkin` calls `Schedule`.
def submit (v : Virtuals ε) (context : Option γ) : Except (Exception ε) Bool :=
  match context with
  | none   => v.schedule
  | some _ => v.checkin.getD v.schedule

end Virtuals

-- This is `none` if the source dereferences a null executor.
def submit (fs : FutureState ε α κ ξ γ) (answers : ξ → Virtuals ε) (body : Option (Exception ε)) :
    Option (Outcome ε α κ ξ γ) :=
  match fs.executor_, fs.submission with
  | some executor, some call =>
    match (answers executor).submit fs.context_ with
    | .ok true  => some ⟨fs, some (.accepted call), none⟩
    | .ok false => some ⟨fs, some .refused, body⟩
    | .error x  => some ⟨fs, none, some x⟩
  | _, _ => none

def scheduleContinuation (fs : FutureState ε α κ ξ γ) (triggerByContinuation : Bool) (answers : ξ → Virtuals ε)
    (body : Option (Exception ε)) : Option (Outcome ε α κ ξ γ) :=
  let inExecutor := match fs.executor_ with
    | some executor => if fs.asksExecutor triggerByContinuation then (answers executor).inExecutor else .ok false
    | none          => .ok false
  match inExecutor with
  | .error x       => some ⟨fs, none, some x⟩
  | .ok inExecutor =>
    if fs.runsInline triggerByContinuation inExecutor then
      some ⟨fs, some .inline, body⟩
    else
      submit fs answers body

-- This is `none` also if a T is destroyed that is not there.
def setResult (fs : FutureState ε (Option α) κ ξ γ) (value : Try ε α) (move : Option (Exception ε))
    (answers : ξ → Virtuals ε) (body : Option (Exception ε)) : Option (Outcome ε (Option α) κ ξ γ) :=
  (fs.setResultMoving value move).bind fun
    | (fs, .ok true)  => scheduleContinuation fs false answers body
    | (fs, .ok false) => some ⟨fs, none, none⟩
    | (fs, .error x)  => some ⟨fs, none, some x⟩

-- The continuation is constructed after the assertion, and stored by the construction itself.
def setContinuation (fs : FutureState ε α κ ξ γ) (func : κ) (move : Option (Exception ε)) (answers : ξ → Virtuals ε)
    (body : Option (Exception ε)) : Option (Outcome ε α κ ξ γ) :=
  match fs.setContinuation func, move with
  | .error x,        _      => some ⟨fs, none, some x⟩
  | .ok _,           some x => some ⟨fs, none, some x⟩
  | .ok (fs, true),  none   => scheduleContinuation fs true answers body
  | .ok (fs, false), none   => some ⟨fs, none, none⟩

def Call.run (c : Call ε α κ) (fs : FutureState ε (Option α) κ ξ γ) (answers : ξ → Virtuals ε)
    (body : Option (Exception ε)) : Option (Outcome ε (Option α) κ ξ γ) :=
  match c with
  | .setResult value move      => Delivery.setResult fs value move answers body
  | .setContinuation func move => Delivery.setContinuation fs func move answers body

-- Whether the call has run the continuation.
def Outcome.started (o : Outcome ε α κ ξ γ) : Bool :=
  match o.handoff with
  | some .inline | some .refused => true
  | _                            => false

def step (s : Config ε (Option α) κ ξ γ) : Op ε α κ ξ γ → Option (Config ε (Option α) κ ξ γ)
  | .setExecutor executor => some { s with fs := s.fs.setExecutor executor }
  | .checkout context     => some { s with fs := s.fs.checkout context }
  | .forceScheduled       => some { s with fs := s.fs.setForceScheduled true }
  | .call c answers body  => (c.run s.fs answers body).map fun o => ⟨o.fs, s.handoffs ++ o.handoff.toList⟩

def system (ε α κ ξ γ : Type) : System (Config ε (Option α) κ ξ γ) (Op ε α κ ξ γ) where
  init := ⟨.new, []⟩
  step := step

end Delivery
end AsyncSimple
