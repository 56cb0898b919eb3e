import AsyncSimple.Base.Try
import Mathlib.Data.List.OfFn

namespace AsyncSimple

namespace Try

-- The conversion of a `Try<void>`, which is never empty, to a `Try<Unit>`.
def ofVoid {ε α : Type} (unit : α) : Try ε Unit → Try ε α
  | exception x => exception x
  | _           => value unit

end Try

-- What becomes of a promise that the user holds.
inductive Fate (ε α : Type)
  | fulfilled (r : Except (Exception ε) α)
  | broken

-- A valid future without a continuation. If it has a shared state, then its promise may be used
-- before (`early`) or after the library gets the future.
inductive Fut (ε α ξ : Type)
  | localState  (r : Except (Exception ε) α) (executor : Option ξ)
  | sharedState (fate : Fate ε α) (early : Bool) (executor : Option ξ)

-- A function given by the user, by its return type, which determines the overload of `ThenImpl`.
inductive Func (ρ ε α ξ : Type)
  | value  (f : ρ → Except (Exception ε) α)
  | void   (f : ρ → Except (Exception ε) Unit)
  | future (f : ρ → Except (Exception ε) (Fut ε α ξ))

-- The types along a chain are merged into one type `α`.
inductive Callback (ε α ξ : Type)
  | thenTry   (f : Func (Try ε α) ε α ξ)
  | thenValue (f : Func α ε α ξ)

variable {ρ σ ε α ξ : Type}

def Fate.outcome : Fate ε α → Except (Exception ε) α
  | fulfilled r => r
  | broken      => .error (.runtimeError "Promise is broken")

namespace Func

def precompose (g : σ → Except (Exception ε) ρ) : Func ρ ε α ξ → Func σ ε α ξ
  | value f  => value fun x => g x >>= f
  | void f   => void fun x => g x >>= f
  | future f => future fun x => g x >>= f

end Func

namespace Callback

-- What is given to `ThenImpl`: in the case of `ThenValue` a function that calls `Value` first.
def func : Callback ε α ξ → Func (Try ε α) ε α ξ
  | thenTry f   => f
  | thenValue f => f.precompose Try.getValue

-- Whether this calls the function of the user.
def invokes (t : Try ε α) : Callback ε α ξ → Bool
  | thenTry _   => true
  | thenValue _ => t.getValue.isOk

end Callback

-- What a chain is meant to compute: its callbacks evaluated from left to right in the exception monad.

namespace Fut

def outcome : Fut ε α ξ → Except (Exception ε) α
  | localState r _       => r
  | sharedState fate _ _ => fate.outcome

end Fut

namespace Func

def eval (unit : α) : Func ρ ε α ξ → ρ → Except (Exception ε) α
  | value f,  x => f x
  | void f,   x => (f x).map fun _ => unit
  | future f, x => f x >>= Fut.outcome

theorem eval_precompose (unit : α) (f : Func ρ ε α ξ) (g : σ → Except (Exception ε) ρ) (x : σ) :
    (f.precompose g).eval unit x = g x >>= f.eval unit := by
  cases f <;> cases h : g x <;> simp [precompose, eval, h] <;> rfl

end Func

namespace Callback

def eval (unit : α) : Callback ε α ξ → Except (Exception ε) α → Except (Exception ε) α
  | thenTry f,   r => f.eval unit (.makeTryCall r)
  | thenValue f, r => r >>= f.eval unit

-- A callback is not invoked if it is given by `ThenValue` and there is no value.
def invoked : Callback ε α ξ → Except (Exception ε) α → Bool
  | thenTry _,   _ => true
  | thenValue _, r => r.isOk

theorem eval_func (unit : α) (c : Callback ε α ξ) (r : Except (Exception ε) α) :
    c.func.eval unit (.makeTryCall r) = c.eval unit r := by
  cases c <;> simp [func, eval, Func.eval_precompose]

theorem invokes_makeTryCall (c : Callback ε α ξ) (r : Except (Exception ε) α) :
    c.invokes (.makeTryCall r) = c.invoked r := by
  cases c <;> simp [invokes, invoked]

end Callback

def evalChain (unit : α) : List (Callback ε α ξ) → Except (Exception ε) α → Except (Exception ε) α
  | [],      r => r
  | c :: cs, r => evalChain unit cs (c.eval unit r)

-- The numbers of the callbacks that are invoked, where the first one is `i`.
def evalLog (unit : α) : Nat → List (Callback ε α ξ) → Except (Exception ε) α → List Nat
  | _, [],      _ => []
  | i, c :: cs, r => (if c.invoked r then [i] else []) ++ evalLog unit (i + 1) cs (c.eval unit r)

theorem Try.ofVoid_makeTryCall (unit : α) (r : Except (Exception ε) Unit) :
    Try.ofVoid unit (.makeTryCall r) = .makeTryCall (r.map fun _ => unit) := by
  cases r <;> rfl

variable {unit : α} {cs ds : List (Callback ε α ξ)} {r : Except (Exception ε) α}

theorem evalChain_append : evalChain unit (cs ++ ds) r = evalChain unit ds (evalChain unit cs r) := by
  induction cs generalizing r
  case nil          => rfl
  case cons c cs ih => exact ih

theorem evalLog_append {i : Nat} :
    evalLog unit i (cs ++ ds) r =
      evalLog unit i cs r ++ evalLog unit (i + cs.length) ds (evalChain unit cs r) := by
  induction cs generalizing r i
  case nil => rfl
  case cons c cs ih =>
    have hi : i + 1 + cs.length = i + (cs.length + 1) := by omega
    simp only [List.cons_append, evalLog, ih, List.append_assoc, List.length_cons, evalChain, hi]

theorem le_of_mem_evalLog {i j : Nat} (h : j ∈ evalLog unit i cs r) : i ≤ j := by
  induction cs generalizing r i
  case nil => contradiction
  case cons c cs ih =>
    cases List.mem_append.mp h
    case inl h =>
      split at h <;> simp at h
      exact Nat.le_of_eq h.symm
    case inr h =>
      have := ih h
      omega

-- No callback is invoked twice, or before one that precedes it.
theorem evalLog_sorted {i : Nat} : (evalLog unit i cs r).Pairwise (· < ·) := by
  induction cs generalizing r i
  case nil => exact .nil
  case cons c cs ih =>
    refine List.pairwise_append.mpr ⟨by split <;> simp, ih, fun j hj k hk => ?_⟩
    have := le_of_mem_evalLog hk
    split at hj <;> simp at hj
    omega

end AsyncSimple
