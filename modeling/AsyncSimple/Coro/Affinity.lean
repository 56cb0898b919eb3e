import AsyncSimple.Coro.Lazy

open Transition

namespace AsyncSimple
namespace Lazy

variable {ε α ξ θ χ : Type}

namespace Body

-- A body that is bound to executor `e`, and runs on a thread of it whenever it goes on after an await.
-- If `any` is false, then it is always the same thread, so that it does not use `Schedule`.
def Stays (e : ξ) (any : Prop) : Body ε α ξ k → Prop
  | coReturn _ | coReturnVoid | throw _                             => True
  | currentExecutor f                                               => (f (some e)).Stays e any
  | yield body                                                      => any ∧ body.Stays e any
  | schedule executor body | scheduleAfter executor body            => any ∧ executor = e ∧ body.Stays e any
  | await child f                                                   => child.Stays e any ∧ ∀ r, (f r).Stays e any
  | awaitVia _ _ f                                                  => ∀ r, (f r).Stays e any
  | awaitExternal _ f                                               => ∀ r, (f r).Stays e any
  | collectAll _ para reschedule executors children f               =>
    (reschedule = false → (para → any) ∧
      ∀ i, (executors i = none ∨ executors i = some e) ∧ (children i).Stays e any) ∧ ∀ r, (f r).Stays e any
  | collectAny _ _ reschedule executors children f                  =>
    (reschedule = false → ∀ i, (executors i = none ∨ executors i = some e) ∧ (children i).Stays e any) ∧
      ∀ r, (f r).Stays e any

-- The next await of a body that is bound to executor `e` brings it back there, whatever the body does
-- after it, provided that this satisfies `rest`.
def Returns (e : ξ) (any : Prop) (rest : Body ε α ξ k → Prop) : Body ε α ξ k → Prop
  | coReturn _ | coReturnVoid | throw _                             => True
  | currentExecutor f                                               => rest (f (some e))
  | yield body                                                      => any ∧ rest body
  | schedule executor body | scheduleAfter executor body            => any ∧ executor = e ∧ rest body
  | await child f                                                   => child.Stays e any ∧ ∀ r, rest (f r)
  | awaitVia _ _ f                                                  => ∀ r, rest (f r)
  | awaitExternal _ f                                               => ∀ r, rest (f r)
  | collectAll _ para reschedule executors children f               =>
    (reschedule = false → (para → any) ∧
      ∀ i, (executors i = none ∨ executors i = some e) ∧ (children i).Stays e any) ∧ ∀ r, rest (f r)
  | collectAny _ _ reschedule executors children f                  =>
    (reschedule = false → ∀ i, (executors i = none ∨ executors i = some e) ∧ (children i).Stays e any) ∧
      ∀ r, rest (f r)

end Body

-- Coroutine `d` is awaited by `c` as a `Lazy`, or by one that is awaited by `c` in this way.
inductive Config.Inherits (s : Config ε α ξ θ χ) (c : Nat) : Nat → Prop
  | self : Inherits s c c
  | await {f : Frame ε α ξ θ k} : (s.cells[d]? = some (.lazy f)) → (f.continuation_ = some p) → (Inherits s c p) →
    Inherits s c d

-- A step of coroutine `c` is not taken.
def Config.rests (s : Config ε α ξ θ χ) (c : Nat) : Action ε α θ → Bool
  | .run _ _  => true
  | .step i _ => s.tokens[i]?.all fun tok => tok.node ≠ .coro c

end Lazy
end AsyncSimple
