import AsyncSimple.Coro.CollectAll
import Mathlib.Algebra.Group.Nat.Defs

open Transition

namespace AsyncSimple
namespace CollectAllWindowed

-- A call of `CollectAllWindowed`, or of `CollectAllWindowedPara` if `para` holds, for `n` children.
-- The executor is the one that the awaiting coroutine is bound to. The result of a child depends on
-- the child only. The elements of a vector have addresses, so that there are less than `2 ^ 63`.
structure Setup (n : Nat) (ε α ξ : Type) where
  para            : Bool
  max_concurrency : Nat
  yield           : Bool
  executor        : Option ξ
  input           : Fin n → Option ξ
  result          : Fin n → Try ε α
  available       : ∀ i, (result i).available
  yieldExecutor   : yield → executor.isSome
  size            : n < 2 ^ 63

-- The children that are awaited together, with the state of their awaiter.
structure Window (n : Nat) (ε α ξ : Type) where
  group  : List (Fin n)
  config : CollectAllAwaiter.Config group.length ε α Unit ξ

inductive Pc (n : Nat) (ε α ξ : Type)
  | entry
  -- Awaits all children at once.
  | all      (window : Window n ε α ξ)
  | loop
  | gather   (end_ : Nat) (tmp_group : List (Option (Fin n)))
  | window   (window : Window n ε α ξ)
  | append   (tmp_output : List (Try ε α))
  | yield
  -- The executor has been given the function that resumes the coroutine.
  | yielded
  | returned (output : List (Try ε α))

-- A child that has been moved out of `input` leaves `none` behind. The last two fields are a record of
-- how often the children have been started, and how often they have been completed.
structure Config (n : Nat) (ε α ξ : Type) where
  input     : List (Option (Fin n))
  output    : List (Try ε α)
  start     : Nat
  pc        : Pc n ε α ξ
  launched  : Fin n → Nat
  completed : Fin n → Nat

-- The steps of the coroutine, those of the awaiter, of the children in the window, and of the
-- executor, and the resumption after a `Yield`.
inductive Action
  | coroutine
  | starter
  | runTask  (i : Nat)
  | complete (i : Nat)
  | child    (i : Nat)
  | resume
  deriving DecidableEq, Repr

variable {n : Nat} {ε α ξ : Type}

-- The children of a vector, unless one of its elements has been moved out.
def children : List (Option (Fin n)) → Option (List (Fin n))
  | []           => some []
  | none :: _    => none
  | some i :: is => (children is).map (i :: ·)

namespace Config

def goto (s : Config n ε α ξ) (pc : Pc n ε α ξ) : Config n ε α ξ :=
  { s with pc }

def launch (s : Config n ε α ξ) (i : Fin n) : Config n ε α ξ :=
  { s with launched := Function.update s.launched i (s.launched i + 1) }

def finish (s : Config n ε α ξ) (i : Fin n) : Config n ε α ξ :=
  { s with completed := Function.update s.completed i (s.completed i + 1) }

-- The number of children that have been started, but are not completed yet.
def active (s : Config n ε α ξ) : Nat :=
  (List.finRange n).countP fun i => s.completed i < s.launched i

end Config

namespace Setup

-- The awaiter of some of the children.
def awaiter (m : Setup n ε α ξ) (group : List (Fin n)) :
    CollectAllAwaiter.Setup group.length Unit ξ where
  para         := m.para
  executor     := m.executor
  input i      := m.input (group.get i)
  continuation := ()

def init (_ : Setup n ε α ξ) : Config n ε α ξ where
  input     := (List.finRange n).map some
  output    := []
  start     := 0
  pc        := .entry
  launched  := fun _ => 0
  completed := fun _ => 0

-- `co_await AT(std::move(group), out_alloc)`, where `ready` is the next step if the group is empty,
-- and `suspended` is the next step otherwise. A child that has been moved out has no promise.
def await (m : Setup n ε α ξ) (s : Config n ε α ξ) (group : List (Option (Fin n)))
    (ready : List (Try ε α) → Pc n ε α ξ) (suspended : Window n ε α ξ → Pc n ε α ξ) :
    Option (Config n ε α ξ) :=
  match children group with
  | none       => none
  | some []    => s.goto (ready [])
  | some group => s.goto (suspended ⟨group, (m.awaiter group).init⟩)

-- The sum of two values of type `size_t` wraps around.
def stepCoroutine (m : Setup n ε α ξ) (s : Config n ε α ξ) : Option (Config n ε α ξ) :=
  match s.pc with
  | .entry =>
    if m.max_concurrency = 0 ∨ s.input.length ≤ m.max_concurrency then
      m.await s s.input .returned .all
    else
      s.goto .loop
  | .all w => if w.config.resumed = [] then none else s.goto (.returned w.config.output)
  | .loop =>
    if s.start < s.input.length then
      s.goto (.gather (min s.input.length ((s.start + m.max_concurrency) % 2 ^ 64)) [])
    else
      s.goto (.returned s.output)
  | .gather end_ tmp_group =>
    if s.start < end_ then
      match s.input[s.start]? with
      | some child =>
        some { s with
          input := s.input.set s.start none
          start := s.start + 1
          pc    := .gather end_ (tmp_group ++ [child]) }
      | none => none
    else
      m.await s tmp_group .append .window
  | .window w => if w.config.resumed = [] then none else s.goto (.append w.config.output)
  | .append (t :: tmp_output) => some { s with output := s.output ++ [t], pc := .append tmp_output }
  | .append [] => s.goto (if m.yield then .yield else .loop)
  | .yield =>
    match m.executor with
    | some _ => s.goto .yielded
    | none   => none
  | .yielded | .returned _ => none

-- A step of the awaiter, of one of its children, or of the executor. A child is started by the step
-- of the starter that runs `func`, or gives it to the executor.
def stepWindow (m : Setup n ε α ξ) (s : Config n ε α ξ) (w : Window n ε α ξ) (a : Action) :
    Option (Config n ε α ξ × Window n ε α ξ) :=
  let step (a : CollectAllAwaiter.Action w.group.length ε α) (s : Config n ε α ξ) :=
    ((m.awaiter w.group).system.step w.config a).map fun config => (s, { w with config })
  match a with
  | .starter =>
    match w.config.starter with
    | .launch i => step .starter (s.launch (w.group.get i))
    | _         => step .starter s
  | .runTask i => if h : i < w.group.length then step (.runTask ⟨i, h⟩) s else none
  | .complete i =>
    if h : i < w.group.length then
      let child := w.group.get ⟨i, h⟩
      step (.complete ⟨i, h⟩ (m.result child)) (s.finish child)
    else
      none
  | .child i => if h : i < w.group.length then step (.child ⟨i, h⟩) s else none
  | .coroutine | .resume => none

def system (m : Setup n ε α ξ) : System (Config n ε α ξ) Action where
  init := m.init
  step s a :=
    match a, s.pc with
    | .coroutine, _     => m.stepCoroutine s
    | .resume, .yielded => s.goto .loop
    | a, .all w         => (m.stepWindow s w a).map fun (s, w) => s.goto (.all w)
    | a, .window w      => (m.stepWindow s w a).map fun (s, w) => s.goto (.window w)
    | _, _              => none

end Setup
end CollectAllWindowed
end AsyncSimple
