import AsyncSimple.Util.ThreadPool

open Transition

namespace AsyncSimple
namespace AtomicPool

open ThreadPool (ErrorType)

-- The pool as its users see it: a call of `ScheduleById` takes effect in a single step, and a worker finds and takes an
-- item in a single step. A call of `Executor::SyncSchedule` takes effect in two steps, the second of which waits for a
-- semaphore that has the number of the call, and that the worker releases after the function.
structure WorkItem (φ : Type) where
  can_steal : Bool
  fn        : φ
  call      : Nat
  sem       : Option Nat

inductive Instr (φ χ : Type)
  | ret
  | skip         (next : χ)
  | scheduleById (fn : Option φ) (id : Int) (k : ErrorType → χ)
  | syncSchedule (func : φ) (k : Bool → χ)

inductive UserPc (χ : Type)
  | code    (c : χ)
  | acquire (sem : Nat) (k : Bool → χ)
  | aborted

inductive WorkerPc (φ χ : Type)
  | idle
  | run     (item : WorkItem φ)
  | user    (sem : Option Nat) (pc : UserPc χ)
  | release (sem : Nat)
  | left

structure Setup (n : Nat) (φ χ ι : Type) where
  enable_work_steal_ : Bool
  entry              : φ → χ
  instr              : χ → Instr φ χ
  client             : ι → χ

-- The counts of the semaphores that are on a stack are in `sems`.
structure Pool (n : Nat) (φ : Type) where
  queues_ : Fin n → List (WorkItem φ)
  stop_   : Bool
  sems    : Nat → Option Nat
  results : List ErrorType
  runs    : List (Fin n × Nat)

structure Config (n : Nat) (φ χ ι : Type) where
  pool     : Pool n φ
  worker   : Fin n → WorkerPc φ χ
  client   : ι → Option (UserPc χ)
  finished : Bool

-- While the pool is being destroyed, a call may come too late. The queue is the one that an item
-- goes into when no id is given.
structure Reply (n : Nat) where
  late  : Bool
  queue : Fin n

inductive Action (n : Nat) (ι : Type)
  | take   (w v : Fin n)
  | leave  (w : Fin n)
  | worker (w : Fin n) (r : Reply n)
  | client (i : ι) (r : Reply n)
  | stop
  | finish

variable {n : Nat} {φ χ ι : Type} [DecidableEq ι]

theorem toNat_lt_of_range {x : Int} (h : 0 ≤ x ∧ x < n) : x.toNat < n := by
  omega

def WorkerPc.hasLeft : WorkerPc φ χ → Bool
  | .left => true
  | _     => false

namespace Pool

def result (p : Pool n φ) (e : ErrorType) : Pool n φ :=
  { p with results := p.results ++ [e] }

def setQueue (p : Pool n φ) (id : Fin n) (q : List (WorkItem φ)) : Pool n φ :=
  { p with queues_ := Function.update p.queues_ id q }

def push (p : Pool n φ) (id : Fin n) (can_steal : Bool) (fn : φ) (sem : Option Nat) : Pool n φ :=
  p.setQueue id (p.queues_ id ++ [⟨can_steal, fn, p.results.length, sem⟩]) |>.result .kErrorNone

def setSem (p : Pool n φ) (sem : Nat) (count : Option Nat) : Pool n φ :=
  { p with sems := Function.update p.sems sem count }

def release (p : Pool n φ) (sem : Nat) : Pool n φ :=
  p.setSem sem ((p.sems sem).map (· + 1))

def run (p : Pool n φ) (w : Fin n) (call : Nat) : Pool n φ :=
  { p with runs := p.runs ++ [(w, call)] }

end Pool

namespace Config

def setWorker (s : Config n φ χ ι) (w : Fin n) (pc : WorkerPc φ χ) : Config n φ χ ι :=
  { s with worker := Function.update s.worker w pc }

def setClient (s : Config n φ χ ι) (i : ι) (pc : Option (UserPc χ)) : Config n φ χ ι :=
  { s with client := Function.update s.client i pc }

end Config

namespace Setup

def init (m : Setup n φ χ ι) : Config n φ χ ι where
  pool.queues_ _ := []
  pool.stop_     := false
  pool.sems _    := none
  pool.results   := []
  pool.runs      := []
  worker _       := .idle
  client i       := some (.code (m.client i))
  finished       := false

-- A step of user code, which is `none` in place of a next step when the code has returned.
def stepUser (m : Setup n φ χ ι) (p : Pool n φ) (r : Reply n) :
    UserPc χ → Option (Pool n φ × Option (UserPc χ))
  | .code c =>
    match m.instr c with
    | .ret    => some (p, none)
    | .skip c => some (p, some (.code c))
    | .scheduleById none _ k =>
      some (p.result .kErrorPoolItemIsNull, some (.code (k .kErrorPoolItemIsNull)))
    | .scheduleById (some fn) id k =>
      if p.stop_ && r.late then
        some (p.result .kErrorPoolHasStop, some (.code (k .kErrorPoolHasStop)))
      else if id = -1 then
        some (p.push r.queue m.enable_work_steal_ fn none, some (.code (k .kErrorNone)))
      else if h : 0 ≤ id ∧ id < n then
        some (p.push ⟨id.toNat, toNat_lt_of_range h⟩ false fn none, some (.code (k .kErrorNone)))
      else
        some (p, some .aborted)
    | .syncSchedule func k =>
      if p.stop_ && r.late then
        some (p.result .kErrorPoolHasStop, some (.code (k false)))
      else
        let sem := p.results.length
        some (p.setSem sem (some 0) |>.push r.queue m.enable_work_steal_ func (some sem), some (.acquire sem k))
  | .acquire sem k =>
    match p.sems sem with
    | some (_ + 1) => some (p.setSem sem none, some (.code (k true)))
    | _            => none
  | .aborted => none

def stepWorker (m : Setup n φ χ ι) (s : Config n φ χ ι) (w : Fin n) (r : Reply n) :
    Option (Config n φ χ ι) :=
  match s.worker w with
  | .run item =>
    { s with pool := s.pool.run w item.call }.setWorker w (.user item.sem (.code (m.entry item.fn)))
  | .user sem pc =>
    match m.stepUser s.pool r pc with
    | some (p, some pc) => { s with pool := p }.setWorker w (.user sem pc)
    | some (p, none)    => { s with pool := p }.setWorker w (sem.elim .idle .release)
    | none              => none
  | .release sem => { s with pool := s.pool.release sem }.setWorker w .idle
  | _ => none

def step (m : Setup n φ χ ι) (s : Config n φ χ ι) : Action n ι → Option (Config n φ χ ι)
  | .take w v =>
    match s.worker w, s.pool.queues_ v with
    | .idle, item :: items =>
      if w = v ∨ item.can_steal then
        some ({ s with pool := s.pool.setQueue v items }.setWorker w (.run item))
      else
        none
    | _, _ => none
  | .leave w =>
    match s.worker w, s.pool.queues_ w with
    | .idle, [] => if s.pool.stop_ then some (s.setWorker w .left) else none
    | _, _      => none
  | .worker w r => m.stepWorker s w r
  | .client i r =>
    match s.client i with
    | some pc => (m.stepUser s.pool r pc).map fun (p, pc) => { s with pool := p }.setClient i pc
    | none    => none
  | .stop   => if s.pool.stop_ then none else some { s with pool.stop_ := true }
  | .finish => if !s.finished ∧ ∀ w, (s.worker w).hasLeft then some { s with finished := true } else none

def system (m : Setup n φ χ ι) : System (Config n φ χ ι) (Action n ι) where
  init := m.init
  step := m.step

end Setup
end AtomicPool
end AsyncSimple
