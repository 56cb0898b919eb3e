import AsyncSimple.Container.ThreadsafeQueue
import AsyncSimple.Lib.Transition
import Mathlib.Logic.Function.Basic

-- A `ThreadsafeQueue` that is shared by any number of threads, with a history of what they do.

open Transition

namespace AsyncSimple
namespace ThreadsafeQueue

inductive Op (τ : Type)
  | push     (item : τ)
  | tryPush  (lock : Bool) (item : τ)
  | pop
  | tryPop   (lock : Bool)
  | tryPopIf (lock : Bool) (predict : Option (τ → Bool))
  | stop

-- What a call has done at the end of its mutex section: it has pushed or popped an item, it returns
-- `false` from an operation that tries (`failed`) or from `Pop` (`drained`), it waits on the condition
-- variable, or it has stopped the queue.
inductive Event (τ : Type)
  | pushed (item : τ)
  | popped (item : τ)
  | failed
  | drained
  | waiting
  | stopped
  deriving DecidableEq, Repr

variable {τ θ : Type}

def Op.isPop : Op τ → Bool
  | pop => true
  | _   => false

def Event.ofTry : Option τ → Event τ
  | some item => popped item
  | none      => failed

def Event.ofPop : Option τ → Event τ
  | some item => popped item
  | none      => drained

def perform (q : ThreadsafeQueue τ) : Op τ → Event τ × ThreadsafeQueue τ
  | .push item             => (.pushed item, q.push item)
  | .tryPush lock item     => (if (q.tryPush lock item).1 then .pushed item else .failed, (q.tryPush lock item).2)
  | .pop                   => q.pop.elim (.waiting, q) fun r => (.ofPop r.1, r.2)
  | .tryPop lock           => (.ofTry (q.tryPop lock).1, (q.tryPop lock).2)
  | .tryPopIf lock predict => (.ofTry (q.tryPopIf lock predict).1, (q.tryPopIf lock predict).2)
  | .stop                  => (.stopped, q.stop)

structure Shared (τ θ : Type) where
  queue   : ThreadsafeQueue τ
  waiting : θ → Bool

-- A thread that waits in `Pop` only goes on with it.
def Shared.step [DecidableEq θ] (s : Shared τ θ) (act : θ × Op τ) : Option (Shared τ θ) :=
  if s.waiting act.1 && !act.2.isPop then
    none
  else
    let r := s.queue.perform act.2
    some { queue := r.2, waiting := Function.update s.waiting act.1 (r.1 matches .waiting) }

def shared [DecidableEq θ] : System (Shared τ θ) (θ × Op τ) where
  init := { queue := new, waiting _ := false }
  step := Shared.step

-- The system with the history of all events, in step order.
def history [DecidableEq θ] : System (Shared τ θ × List (θ × Event τ)) (θ × Op τ) :=
  shared.record [] fun s act _ h => h ++ [(act.1, (s.queue.perform act.2).1)]

def Event.pushes : Event τ → Option τ
  | pushed item => some item
  | _           => none

def Event.pops : Event τ → Option τ
  | popped item => some item
  | _           => none

-- The items of successful `Push` and `TryPush` calls.
def pushes (h : List (θ × Event τ)) : List τ :=
  h.filterMap (·.2.pushes)

-- The items that are returned by successful `Pop`, `TryPop` and `TryPopIf` calls.
def pops (h : List (θ × Event τ)) : List τ :=
  h.filterMap (·.2.pops)

end ThreadsafeQueue
end AsyncSimple
