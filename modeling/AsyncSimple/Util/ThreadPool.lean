import AsyncSimple.Lib.Transition
import AsyncSimple.Container.ThreadsafeQueue
import Mathlib.Algebra.GroupWithZero.Nat
import Mathlib.Data.Fin.Basic
import Mathlib.Logic.Function.Basic

open Transition

namespace AsyncSimple
namespace ThreadPool

inductive ErrorType
  | kErrorNone
  | kErrorPoolHasStop
  | kErrorPoolItemIsNull
  deriving DecidableEq, Repr

-- As `ScheduleById` rejects null functions, an item in a queue has a function `fn : φ`. The empty
-- item of `WorkerThreadMain` is the `none` of `Option (WorkItem φ)`. The field `call` is the number
-- of the call of `ScheduleById` that has pushed the item, which no step reads.
structure WorkItem (φ : Type) where
  can_steal : Bool
  fn        : φ
  call      : Nat
  deriving DecidableEq, Repr

-- User code in a control state `χ`: it returns, does something of its own, or calls `ScheduleById`
-- and goes on according to the result.
inductive Instr (φ χ : Type)
  | ret
  | skip         (next : χ)
  | scheduleById (fn : Option φ) (id : Int) (k : ErrorType → χ)

-- The next step of a running `ScheduleById`.
inductive SchedulePc (n : Nat) (φ : Type)
  | readStop (fn : φ) (id : Int)
  | tryPush  (fn : φ) (n : Nat)
  | push     (can_steal : Bool) (fn : φ) (id : Fin n)

inductive UserPc (n : Nat) (φ χ : Type)
  | code     (c : χ)
  | schedule (k : ErrorType → χ) (pc : SchedulePc n φ)
  | aborted

-- The next step of `WorkerThreadMain`.
inductive WorkerPc (n : Nat) (φ χ : Type)
  | top
  | steal (n : Nat)
  | pop
  | run   (item : WorkItem φ)
  | user  (pc : UserPc n φ χ)
  | left

-- The next step of the destructor.
inductive DestructorPc
  | start
  | stop (i : Nat)
  | join (i : Nat)
  | finished
  deriving DecidableEq, Repr

-- What the environment answers in a step: the outcome of `std::try_to_lock`, and of `rand`.
structure Reply where
  lock : Bool
  rand : Nat

structure Setup (n : Nat) (φ χ ι : Type) where
  enable_work_steal_ : Bool
  entry              : φ → χ
  instr              : χ → Instr φ χ
  client             : ι → χ

-- The fields from `results` on are a record of the run, which no step reads: the results of the
-- calls of `ScheduleById` in the order in which they have taken effect, and the workers that have
-- called a function, with the number of the call that has scheduled it. The threads of the pool are
-- its `n` workers; a client is any other thread, and is `none` once its code has returned.
structure Config (n : Nat) (φ χ ι : Type) where
  queues_    : Fin n → ThreadsafeQueue (WorkItem φ)
  stop_      : Bool
  worker     : Fin n → WorkerPc n φ χ
  client     : ι → Option (UserPc n φ χ)
  destructor : DestructorPc
  results    : List ErrorType
  runs       : List (Fin n × Nat)

inductive Action (n : Nat) (ι : Type)
  | worker (id : Fin n) (r : Reply)
  | client (i : ι) (r : Reply)
  | destructor

variable {n : Nat} [NeZero n] {φ χ ι : Type} [DecidableEq ι]

namespace Config

def setQueue (s : Config n φ χ ι) (id : Fin n) (q : ThreadsafeQueue (WorkItem φ)) :
    Config n φ χ ι :=
  { s with queues_ := Function.update s.queues_ id q }

def setWorker (s : Config n φ χ ι) (id : Fin n) (pc : WorkerPc n φ χ) : Config n φ χ ι :=
  { s with worker := Function.update s.worker id pc }

def setClient (s : Config n φ χ ι) (i : ι) (pc : Option (UserPc n φ χ)) : Config n φ χ ι :=
  { s with client := Function.update s.client i pc }

def result (s : Config n φ χ ι) (e : ErrorType) : Config n φ χ ι :=
  { s with results := s.results ++ [e] }

end Config

namespace Setup

def init (m : Setup n φ χ ι) : Config n φ χ ι where
  queues_ _  := .new
  stop_      := false
  worker _   := .top
  client i   := some (.code (m.client i))
  destructor := .start
  results    := []
  runs       := []

def stepSchedule (m : Setup n φ χ ι) (s : Config n φ χ ι) (k : ErrorType → χ) (r : Reply) :
    SchedulePc n φ → Config n φ χ ι × UserPc n φ χ
  | .readStop fn id =>
    if s.stop_ then
      (s.result .kErrorPoolHasStop, .code (k .kErrorPoolHasStop))
    else if id = -1 then
      if m.enable_work_steal_ then
        (s, .schedule k (.tryPush fn 0))
      else
        (s, .schedule k (.push m.enable_work_steal_ fn (Fin.ofNat n r.rand)))
    -- `ASSERT(id < thread_num_)` compares unsigned numbers, so it fails for a negative `id`.
    else if h : 0 ≤ id ∧ id < n then
      (s, .schedule k (.push false fn ⟨id.toNat, by omega⟩))
    else
      (s, .aborted)
  | .tryPush fn i =>
    if i < n * 2 then
      match (s.queues_ (Fin.ofNat n i)).tryPush r.lock ⟨true, fn, s.results.length⟩ with
      | (true, q)  => ((s.setQueue (Fin.ofNat n i) q).result .kErrorNone, .code (k .kErrorNone))
      | (false, _) => (s, .schedule k (.tryPush fn (i + 1)))
    else
      (s, .schedule k (.push m.enable_work_steal_ fn (Fin.ofNat n r.rand)))
  | .push can_steal fn id =>
    let q := (s.queues_ id).push ⟨can_steal, fn, s.results.length⟩
    ((s.setQueue id q).result .kErrorNone, .code (k .kErrorNone))

-- A step of user code, which is `none` in place of a next step when the code has returned.
def stepUser (m : Setup n φ χ ι) (s : Config n φ χ ι) (r : Reply) :
    UserPc n φ χ → Option (Config n φ χ ι × Option (UserPc n φ χ))
  | .code c =>
    match m.instr c with
    | .ret                        => some (s, none)
    | .skip c                     => some (s, some (.code c))
    | .scheduleById (some fn) id k => some (s, some (.schedule k (.readStop fn id)))
    | .scheduleById none _ k =>
      some (s.result .kErrorPoolItemIsNull, some (.code (k .kErrorPoolItemIsNull)))
  | .schedule k pc =>
    let (s, pc) := m.stepSchedule s k r pc
    some (s, some pc)
  | .aborted => none

def stepWorker (m : Setup n φ χ ι) (s : Config n φ χ ι) (id : Fin n) (r : Reply) :
    Option (Config n φ χ ι) :=
  match s.worker id with
  | .top => s.setWorker id (if m.enable_work_steal_ then .steal 0 else .pop)
  | .steal i =>
    if i < n * 2 then
      let victim := Fin.ofNat n (id + i)
      match (s.queues_ victim).tryPopIf r.lock (some (·.can_steal)) with
      | (some item, q) => (s.setQueue victim q).setWorker id (.run item)
      | (none, _)      => s.setWorker id (.steal (i + 1))
    else
      s.setWorker id .pop
  | .pop =>
    match (s.queues_ id).pop with
    | some (some item, q) => (s.setQueue id q).setWorker id (.run item)
    | some (none, _)      => s.setWorker id .left
    | none                => none
  | .run item =>
    { s with runs := s.runs ++ [(id, item.call)] }.setWorker id (.user (.code (m.entry item.fn)))
  | .user pc =>
    match m.stepUser s r pc with
    | some (s, some pc) => s.setWorker id (.user pc)
    | some (s, none)    => s.setWorker id .top
    | none              => none
  | .left => none

def stepClient (m : Setup n φ χ ι) (s : Config n φ χ ι) (i : ι) (r : Reply) :
    Option (Config n φ χ ι) :=
  match s.client i with
  | some pc => (m.stepUser s r pc).map fun (s, pc) => s.setClient i pc
  | none    => none

def stepDestructor (s : Config n φ χ ι) : Option (Config n φ χ ι) :=
  match s.destructor with
  | .start => some { s with stop_ := true, destructor := .stop 0 }
  | .stop i =>
    if h : i < n then
      some { s.setQueue ⟨i, h⟩ (s.queues_ ⟨i, h⟩).stop with destructor := .stop (i + 1) }
    else
      some { s with destructor := .join 0 }
  | .join i =>
    if h : i < n then
      match s.worker ⟨i, h⟩ with
      | .left => some { s with destructor := .join (i + 1) }
      | _     => none
    else
      some { s with destructor := .finished }
  | .finished => none

def system (m : Setup n φ χ ι) : System (Config n φ χ ι) (Action n ι) where
  init := m.init
  step s
    | .worker id r => m.stepWorker s id r
    | .client i r  => m.stepClient s i r
    | .destructor  => stepDestructor s

end Setup
end ThreadPool
end AsyncSimple
