import AsyncSimple.Util.Pinning
import Mathlib.Data.BitVec

namespace AsyncSimple

structure ScheduleOptions where
  prompt : Bool := true

-- The thread-local variable of `ThreadPool::GetCurrent`, where `π` are the addresses of the pools.
structure Current (π : Type) where
  first  : BitVec 32
  second : Option π

-- A thread is a worker of a pool, or belongs to none.
inductive Thread {π : Type} (thread_num_ : π → Nat)
  | worker (pool : π) (id : Fin (thread_num_ pool))
  | other

namespace Thread

variable {π : Type} {thread_num_ : π → Nat}

def current : Thread thread_num_ → Current π
  | .worker pool id => ⟨BitVec.ofNat 32 id, some pool⟩
  | .other          => ⟨-1, none⟩

def WorksFor (t : Thread thread_num_) (pool : π) : Prop :=
  ∃ id, t = .worker pool id

end Thread

namespace SimpleExecutor

variable {π : Type} [DecidableEq π]

def getCurrentId (pool_ : π) (current : Current π) : BitVec 32 :=
  if some pool_ = current.second then current.first else -1

def kContextMask : BitVec 64 := 0x40000000

def checkout (pool_ : π) (current : Current π) : BitVec 64 :=
  (getCurrentId pool_ current).signExtend 64 ||| kContextMask

-- What `Checkin` does with its function: it calls it, or passes it to `ScheduleById`.
inductive Dispatch
  | call
  | scheduleById (id : BitVec 32)
  deriving DecidableEq

def checkin (pool_ : π) (current : Current π) (context : BitVec 64) (options : ScheduleOptions) :
    Dispatch :=
  let id := context
  let prompt :=
    (getCurrentId pool_ current).signExtend 64 = (id &&& ~~~kContextMask) ∧ options.prompt
  if prompt then .call else .scheduleById ((id &&& ~~~kContextMask).setWidth 32)

end SimpleExecutor
end AsyncSimple
