import AsyncSimple.Coro.Lazy

open Transition

namespace AsyncSimple
namespace Lazy

variable {ε α ξ θ χ : Type}

namespace Body

-- The outcomes of a body, when it is evaluated by ordinary nested calls, with the executor that it is bound
-- to: an external awaiter may return anything, and any child of a vector may be the first one.
def Gives : Body ε α ξ k → Option ξ → Try ε (Option α) → Prop
  | coReturn v, _, r                                => r = .value (some v)
  | coReturnVoid, _, r                              => r = .value none
  | throw x, _, r                                   => r = .exception x
  | currentExecutor f, executor_, r                 => (f executor_).Gives executor_ r
  | yield body, executor_, r                        => body.Gives executor_ r
  | schedule _ body, executor_, r                   => body.Gives executor_ r
  | scheduleAfter _ body, executor_, r              => body.Gives executor_ r
  | await child f, executor_, r                     => ∃ v, child.Gives executor_ v ∧ (f v).Gives executor_ r
  | awaitVia executor child f, executor_, r         => ∃ v, child.Gives executor v ∧ (f v).Gives executor_ r
  | awaitExternal _ f, executor_, r                 => ∃ v, (f v).Gives executor_ r
  | collectAll n _ _ executors children f, executor_, r =>
    ∃ v : Fin n → Try ε (Option α),
      (∀ i, (children i).Gives ((executors i).or executor_) (v i)) ∧ (f (List.ofFn v)).Gives executor_ r
  | collectAny n _ _ executors children f, executor_, r =>
    ∃ (i : Fin n) (v : _), (children i).Gives ((executors i).or executor_) v ∧ (f ⟨some i, v⟩).Gives executor_ r

-- The weakest precondition of a body: it does not use an executor that is null, nor await the first child of
-- an empty vector, and its outcomes satisfy `Q`.
def Ensures : Body ε α ξ k → Option ξ → (Try ε (Option α) → Prop) → Prop
  | coReturn v, _, Q                                => Q (.value (some v))
  | coReturnVoid, _, Q                              => Q (.value none)
  | throw x, _, Q                                   => Q (.exception x)
  | currentExecutor f, executor_, Q                 => (f executor_).Ensures executor_ Q
  | yield body, executor_, Q                        => executor_.isSome ∧ body.Ensures executor_ Q
  | schedule _ body, executor_, Q                   => body.Ensures executor_ Q
  | scheduleAfter _ body, executor_, Q              => body.Ensures executor_ Q
  | await child f, executor_, Q                     => child.Ensures executor_ fun v => (f v).Ensures executor_ Q
  | awaitVia executor child f, executor_, Q         =>
    executor.isSome ∧ child.Ensures executor fun v => (f v).Ensures executor_ Q
  | awaitExternal _ f, executor_, Q                 => ∀ v, (f v).Ensures executor_ Q
  | collectAll n _ reschedule executors children f, executor_, Q =>
    (reschedule → ∀ i, ((executors i).or executor_).isSome) ∧
      ∃ P : Fin n → Try ε (Option α) → Prop, (∀ i, (children i).Ensures ((executors i).or executor_) (P i)) ∧
        ∀ v : Fin n → Try ε (Option α), (∀ i, P i (v i)) → (f (List.ofFn v)).Ensures executor_ Q
  | collectAny n _ reschedule executors children f, executor_, Q =>
    n ≠ 0 ∧ (reschedule → ∀ i, ((executors i).or executor_).isSome) ∧
      ∀ i, (children i).Ensures ((executors i).or executor_) fun v => (f ⟨some i, v⟩).Ensures executor_ Q

-- A body without a fault.
def Sound (body : Body ε α ξ k) (executor_ : Option ξ) : Prop :=
  body.Ensures executor_ fun _ => True

-- A body whose outcome does not depend on external awaiters, nor on the order of the children of a vector.
def Determined : Body ε α ξ k → Prop
  | coReturn _ | coReturnVoid | throw _     => True
  | currentExecutor f                       => ∀ executor_, (f executor_).Determined
  | yield body                              => body.Determined
  | schedule _ body | scheduleAfter _ body  => body.Determined
  | await child f                           => child.Determined ∧ ∀ v, (f v).Determined
  | awaitVia _ child f                      => child.Determined ∧ ∀ v, (f v).Determined
  | awaitExternal _ _                       => False
  | collectAll _ _ _ _ children f           => (∀ i, (children i).Determined) ∧ ∀ v, (f v).Determined
  | collectAny _ _ _ _ _ _                  => False

end Body

end Lazy
end AsyncSimple
