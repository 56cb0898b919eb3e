import Mathlib.Data.List.Basic

namespace AsyncSimple

structure CountEvent (κ : Type) where
  count_              : Nat
  awaiting_coroutine_ : Option κ
  deriving DecidableEq, Repr

namespace CountEvent

variable {κ : Type}

def new (count : Nat) : CountEvent κ where
  count_              := count + 1
  awaiting_coroutine_ := none

def setAwaitingCoroutine (e : CountEvent κ) (h : κ) : CountEvent κ :=
  { e with awaiting_coroutine_ := some h }

-- The first component is what `fetch_sub` returns.
def downCount (e : CountEvent κ) (n : Nat) : Nat × CountEvent κ :=
  (e.count_, { e with count_ := e.count_ - n })

def exchange (e : CountEvent κ) : Option κ × CountEvent κ :=
  (e.awaiting_coroutine_, { e with awaiting_coroutine_ := none })

end CountEvent

-- The next step of a party that calls `Down`, and resumes the coroutine that it gets, if any.
inductive DownPc (κ : Type)
  | down
  | exchange
  | resume (h : κ)
  | done
  deriving DecidableEq, Repr

namespace DownPc

variable {κ : Type}

-- The coroutines that have been resumed are recorded in `resumed`.
def step (event : CountEvent κ) (resumed : List κ) :
    DownPc κ → Option (CountEvent κ × List κ × DownPc κ)
  | .down =>
    let (old_count, event) := event.downCount 1
    some (event, resumed, if old_count = 1 then .exchange else .done)
  | .exchange =>
    match event.exchange with
    | (some h, event) => some (event, resumed, .resume h)
    | (none, event)   => some (event, resumed, .done)
  | .resume h => some (event, resumed ++ [h], .done)
  | .done     => none

end DownPc
end AsyncSimple
