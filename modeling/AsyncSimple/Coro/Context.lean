import AsyncSimple.Coro.Affinity
import AsyncSimple.Executor.SimpleExecutor

namespace AsyncSimple
namespace SimpleExecutor

variable {π : Type} [DecidableEq π] {thread_num_ : π → Nat}

def currentThreadInExecutor (pool_ : π) (current : Current π) : Bool :=
  getCurrentId pool_ current ≠ -1

-- The id that `Checkin` passes to `ScheduleById`.
def contextId (context : BitVec 64) : BitVec 32 :=
  (context &&& ~~~kContextMask).setWidth 32

-- The function that is passed to `ScheduleById` is called by the worker with its id, or by any worker.
def admits (pool_ : π) (current : Current π) (id : BitVec 32) : Bool :=
  currentThreadInExecutor pool_ current ∧ (id = -1 ∨ id = getCurrentId pool_ current)

-- The bit of the mask is not set in the id of a context, but it is in that of a thread outside of the pool.
theorem checkin_call {pool_ : π} (h : checkin pool_ current context options = .call) :
    currentThreadInExecutor pool_ current := by
  simp only [checkin] at h
  split at h
  case isFalse   => contradiction
  case isTrue hp =>
    refine decide_eq_true fun hid => ?_
    have hm : (context &&& ~~~kContextMask) &&& kContextMask = 0 := by
      rw [BitVec.and_assoc, BitVec.and_comm (~~~kContextMask), BitVec.and_not_self]
      exact BitVec.and_zero
    rw [← hp.left, hid] at hm
    exact absurd hm (by decide)

-- The executor as coroutines use it: `Schedule` and `Checkin` pass what they do not call to `ScheduleById`.
def executor (pool_ : π) : Executor (Thread thread_num_) (BitVec 64) where
  currentThreadInExecutor t := currentThreadInExecutor pool_ t.current
  checkout t                := checkout pool_ t.current
  prompt t context          := checkin pool_ t.current context {} = .call
  admits context t          := admits pool_ t.current (contextId context)
  prompt_in _ _ h           := checkin_call (of_decide_eq_true h)
  admits_in _ _ h           := (of_decide_eq_true h).left

end SimpleExecutor
end AsyncSimple
