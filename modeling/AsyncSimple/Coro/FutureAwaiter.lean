import AsyncSimple.Sync.Rendezvous

open Transition

namespace AsyncSimple
namespace FutureAwaiter

-- The next step of the coroutine that awaits a future: `await_ready`, or `await_resume` after it is ready or
-- has been resumed. In between, it is suspended. At the end, the `co_await` returns a value or throws what
-- `await_resume` throws (`returned`), or it throws what `await_suspend` has thrown (`threw`).
inductive Pc (ε α : Type)
  | awaitReady
  | suspended
  | awaitResume
  | returned (r : Except (Exception ε) α)
  | threw (x : Exception ε)
  deriving DecidableEq

-- The future has a local state with a result, or else the state that it shares with the promise.
structure Setup (ε α ξ γ : Type) where
  local_ : Option { t : Try ε α // t.available }
  shared : Rendezvous.Setup ε α Unit ξ γ Unit

-- The calls of `SetResult` by the promise, and of `SetContinuation` by `await_suspend`, with the number of
-- times that the handle of the coroutine has been resumed.
structure Config (ε α ξ γ : Type) where
  shared  : Rendezvous.Config ε α Unit ξ γ Unit
  pc      : Pc ε α
  waits   : Bool
  resumed : Nat

inductive Action (ε : Type)
  | coroutine
  | shared (a : Rendezvous.Action ε Unit)

variable {ε α ξ γ : Type}

-- The continuation that `await_suspend` sets.
def Config.resume (s : Config ε α ξ γ) : Config ε α ξ γ :=
  { s with pc := .awaitResume, resumed := s.resumed + 1 }

-- A step of one of the calls. The coroutine is resumed by each call of the continuation, and also when
-- `SetContinuation` throws in `await_suspend`, and then with the exception.
def Config.follow (s : Config ε α ξ γ) (shared : Rendezvous.Config ε α Unit ξ γ Unit) : Config ε α ξ γ :=
  if shared.invoked.length ≠ s.shared.invoked.length then
    { s with shared := shared }.resume
  else
    match shared.pc .continuation with
    | .threw x => { s with shared := shared, pc := .threw x }
    | _        => { s with shared := shared }

namespace Setup

-- `Future::HasResult` and `Future::GetTry`

def hasResult (m : Setup ε α ξ γ) (s : Config ε α ξ γ) : Bool :=
  m.local_.isSome || s.shared.fs.hasResult

def getTry (m : Setup ε α ξ γ) (s : Config ε α ξ γ) : Except (Exception ε) (Try ε α) :=
  if m.hasResult s then
    .ok (m.local_.elim s.shared.fs.try_value_ (·.val))
  else
    .error (.logicError "Future is not ready")

def coroutine (m : Setup ε α ξ γ) (s : Config ε α ξ γ) : Option (Config ε α ξ γ) :=
  match s.pc with
  | .awaitReady  => if m.hasResult s then some { s with pc := .awaitResume } else some { s with pc := .suspended, waits := true }
  | .awaitResume => some { s with pc := .returned ((m.getTry s).bind Try.getValue) }
  | .suspended | .returned _ | .threw _ => none

-- `await_suspend` calls `SetContinuation`. The continuation resumes the coroutine, which does not throw, as
-- the coroutine catches its exceptions itself.
def enabled (s : Config ε α ξ γ) : Rendezvous.Action ε Unit → Bool
  | .step (.result _) r   => r.body.isNone
  | .step .continuation r => s.waits && r.body.isNone
  | .runTask              => true

def step (m : Setup ε α ξ γ) (s : Config ε α ξ γ) : Action ε → Option (Config ε α ξ γ)
  | .coroutine => m.coroutine s
  | .shared a  =>
    if enabled s a then
      (m.shared.system.step s.shared a).map s.follow
    else
      none

def system (m : Setup ε α ξ γ) : System (Config ε α ξ γ) (Action ε) where
  init := ⟨m.shared.init, .awaitReady, false, 0⟩
  step := m.step

-- The result that the future is given.
def result (m : Setup ε α ξ γ) : Try ε α :=
  m.local_.elim (m.shared.value ()) (·.val)

end Setup
end FutureAwaiter
end AsyncSimple
