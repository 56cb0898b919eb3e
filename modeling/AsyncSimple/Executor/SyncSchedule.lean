import AsyncSimple.Util.AtomicPool
import AsyncSimple.Util.Pinning

open Transition

namespace AsyncSimple
namespace SyncSchedule

-- A function as it is passed to `ScheduleById`. That of `SyncSchedule` calls `f`, and releases `sem` afterwards. The
-- semaphore is on the stack of the thread that calls `SyncSchedule`, which is in one such call at a time, and so it is
-- named by this thread.
structure Func (n : Nat) (φ ι : Type) where
  f   : φ
  sem : Option (ThreadPool.Thread n ι)

-- The code that a thread runs, where `sem` is of the function that it is in.
inductive Code (n : Nat) (χ ι : Type)
  | user    (sem : Option (ThreadPool.Thread n ι)) (c : χ)
  | acquire (sem : Option (ThreadPool.Thread n ι)) (k : Bool → χ)
  | refused (sem : Option (ThreadPool.Thread n ι)) (k : Bool → χ)
  | release (sem : ThreadPool.Thread n ι)

-- The counts of the semaphores are in `sems`, which is `none` for those that do not exist. The field `calls` is a record
-- of the run, which no step reads: the number of the results that there were before the last step of a thread, and so
-- the number of the call of `ScheduleById` that has ended with it, if one has.
structure Config (n : Nat) (φ χ ι : Type) where
  pool  : ThreadPool.Config n (Func n φ ι) (Code n χ ι) ι
  sems  : ThreadPool.Thread n ι → Option Nat
  calls : ThreadPool.Thread n ι → Nat

variable {n : Nat} {φ χ ι : Type}

-- `SyncSchedule` after the return of `Schedule`.
def afterSchedule (sem : Option (ThreadPool.Thread n ι)) (k : Bool → χ) (e : ThreadPool.ErrorType) : Code n χ ι :=
  if e = .kErrorNone then .acquire sem k else .refused sem k

-- The steps of thread `t`, when the threads run the user code of `m`, and `Schedule` is that of `SimpleExecutor`.
def instr (m : AtomicPool.Setup n φ χ ι) (t : ThreadPool.Thread n ι) :
    Code n χ ι → ThreadPool.Instr (Func n φ ι) (Code n χ ι)
  | .user sem c =>
    match m.instr c with
    | .ret =>
      match sem with
      | some sem => .skip (.release sem)
      | none     => .ret
    | .skip c               => .skip (.user sem c)
    | .scheduleById fn id k => .scheduleById (fn.map (⟨·, none⟩)) id fun e => .user sem (k e)
    | .syncSchedule func k  => .scheduleById (some ⟨func, some t⟩) (-1) (afterSchedule sem k)
  | .acquire sem k => .skip (.user sem (k true))
  | .refused sem k => .skip (.user sem (k false))
  | .release _     => .ret

def setup (m : AtomicPool.Setup n φ χ ι) (t : ThreadPool.Thread n ι) :
    ThreadPool.Setup n (Func n φ ι) (Code n χ ι) ι where
  enable_work_steal_ := m.enable_work_steal_
  entry fn           := .user fn.sem (m.entry fn.f)
  instr              := instr m t
  client i           := .user none (m.client i)

-- The thread that takes a step, unless it is the one of the destructor.
def thread : ThreadPool.Action n ι → Option (ThreadPool.Thread n ι)
  | .worker w _ => some (.inl w)
  | .client i _ => some (.inr i)
  | .destructor => none

def Config.userPc (s : Config n φ χ ι) :
    ThreadPool.Thread n ι → Option (ThreadPool.UserPc n (Func n φ ι) (Code n χ ι))
  | .inl w =>
    match s.pool.worker w with
    | .user pc => some pc
    | _        => none
  | .inr i => s.pool.client i

variable [DecidableEq ι]

-- What a step of thread `t` does to the semaphores: `SyncSchedule` constructs its own, which is destroyed on return. The
-- result is `none`, while the thread waits in `acquire`.
def stepSems (m : AtomicPool.Setup n φ χ ι) (sems : ThreadPool.Thread n ι → Option Nat) (t : ThreadPool.Thread n ι) :
    ThreadPool.UserPc n (Func n φ ι) (Code n χ ι) → Option (ThreadPool.Thread n ι → Option Nat)
  | .code (.user _ c) =>
    match m.instr c with
    | .syncSchedule _ _ => some (Function.update sems t (some 0))
    | _                 => some sems
  | .code (.acquire _ _) =>
    match sems t with
    | some (_ + 1) => some (Function.update sems t none)
    | _            => none
  | .code (.refused _ _) => some (Function.update sems t none)
  | .code (.release sem) => some (Function.update sems sem ((sems sem).map (· + 1)))
  | _                    => some sems

variable [NeZero n]

def init (m : AtomicPool.Setup n φ χ ι) : Config n φ χ ι where
  pool    := (setup m (.inl 0)).init
  sems _  := none
  calls _ := 0

def step (m : AtomicPool.Setup n φ χ ι) (s : Config n φ χ ι) (a : ThreadPool.Action n ι) : Option (Config n φ χ ι) :=
  match thread a with
  | some t =>
    match (s.userPc t).elim (some s.sems) (stepSems m s.sems t), (setup m t).system.step s.pool a with
    | some sems, some pool => some ⟨pool, sems, Function.update s.calls t s.pool.results.length⟩
    | _, _                 => none
  | none => (ThreadPool.Setup.stepDestructor s.pool).map fun pool => { s with pool }

def system (m : AtomicPool.Setup n φ χ ι) : System (Config n φ χ ι) (ThreadPool.Action n ι) where
  init := init m
  step := step m

end SyncSchedule
end AsyncSimple
