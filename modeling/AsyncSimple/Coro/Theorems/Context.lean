import AsyncSimple.Coro.Context
import AsyncSimple.Coro.Theorems.Affinity
import AsyncSimple.Executor.Theorems.SimpleExecutor

open Transition

namespace AsyncSimple

namespace SimpleExecutor

variable {π : Type} [DecidableEq π] {thread_num_ : π → Nat} {pool : π} {t t₀ : Thread thread_num_}

theorem worksFor_of_current (h : currentThreadInExecutor pool t.current) : t.WorksFor pool := by
  by_contra hn
  simp [currentThreadInExecutor, getCurrentId_other hn] at h

section Worker

variable {i : Fin (thread_num_ pool)} (hn : thread_num_ pool < 2 ^ 30)
include hn

theorem contextId_worker :
    contextId ((executor pool).checkout (Thread.worker pool i : Thread thread_num_)) = BitVec.ofNat 32 i := by
  have hi : i.val < 2 ^ 30 := by omega
  rw [contextId, show (executor pool).checkout _ &&& _ = _ from checkout_worker hn]
  apply BitVec.eq_of_toNat_eq
  simp only [BitVec.toNat_setWidth, BitVec.toNat_ofNat]
  omega

omit [DecidableEq π] in
theorem id_ne {j : Nat} (h : j < thread_num_ pool) : BitVec.ofNat 32 j ≠ -1 := by
  intro he
  have := congrArg BitVec.toNat he
  rw [BitVec.toNat_ofNat, show (-1 : BitVec 32).toNat = 2 ^ 32 - 1 by decide] at this
  omega

-- The context of a worker leads back to this worker, however it is checked in.

theorem prompt_worker (h : (executor pool).prompt t ((executor pool).checkout (Thread.worker pool i))) :
    t = .worker pool i := by
  obtain ⟨_, _, ht⟩ | hc := roundTrip_worker hn (i := i) t {}
  · exact ht
  · have h : roundTrip pool (.worker pool i) t {} = .call := of_decide_eq_true h
    simp [hc] at h

theorem admits_worker (h : (executor pool).admits ((executor pool).checkout (Thread.worker pool i)) t) :
    t = .worker pool i := by
  obtain ⟨ht, h⟩ := of_decide_eq_true (p := _ ∧ _) h
  obtain ⟨j, rfl⟩ := worksFor_of_current ht
  rw [contextId_worker hn, getCurrentId_worker] at h
  have h := congrArg BitVec.toNat (h.resolve_left (id_ne hn i.isLt))
  rw [BitVec.toNat_ofNat, BitVec.toNat_ofNat] at h
  rw [show i = j by omega]

-- What the pool does with a function that is passed to `ScheduleById` agrees with this.
theorem admits_of_runs [NeZero (thread_num_ pool)] {φ χ ι : Type} [DecidableEq ι]
    {m : ThreadPool.Setup (thread_num_ pool) φ χ ι}
    {r : ThreadPool.Config (thread_num_ pool) φ χ ι × ThreadPool.Record _ ι}
    (hr : (m.system.record .init (ThreadPool.Record.note m)).Reachable r) {context : BitVec 64}
    {w : Fin (thread_num_ pool)}
    (hp : ((contextId context).toInt, c) ∈ r.2.pushes) (hw : (w, c) ∈ r.1.runs) :
    (executor pool).admits context (Thread.worker pool w : Thread thread_num_) := by
  refine decide_eq_true (p := _ ∧ _) ⟨?_, ?_⟩
  · rw [currentThreadInExecutor, getCurrentId_worker]
    exact decide_eq_true (id_ne hn w.isLt)
  · rw [getCurrentId_worker]
    by_cases hx : contextId context = -1
    case pos => exact .inl hx
    case neg =>
      have hi : (contextId context).toInt ≠ -1 := fun h => hx (BitVec.eq_of_toInt_eq h)
      have h := (ThreadPool.PinnedInv.reachable hr).home hp hi hw
      exact .inr (BitVec.eq_of_toInt_eq (h.trans (toInt_id (by omega)).symm))

end Worker
end SimpleExecutor

namespace Lazy

variable {ε α ξ π : Type} [DecidableEq π] {thread_num_ : π → Nat} {pool : π}
  {m : Setup ε α ξ (Thread thread_num_) (BitVec 64)} {e : ξ} {s s₁ s₂ s₃ : Config ε α ξ (Thread thread_num_) (BitVec 64)}
  {t t' t₁ t₂ : Thread thread_num_} {a : Action ε α (Thread thread_num_)} {env : Env ε α}

-- A worker of the pool is a place.
def Places.worker (he : m.executor e = SimpleExecutor.executor pool) (hn : thread_num_ pool < 2 ^ 30) :
    Places m e False (Fin (thread_num_ pool)) where
  On i t     := t = .worker pool i
  prompt     := by
    rintro i _ t rfl h
    exact SimpleExecutor.prompt_worker hn (he ▸ h)
  admits     := by
    rintro i _ t rfl h
    exact SimpleExecutor.admits_worker hn (he ▸ h)
  schedule h := h.elim

-- A coroutine that is bound to a `SimpleExecutor`, and runs on one of its workers, goes on there after an
-- await.
theorem affine_worker {f : Frame ε α ξ (Thread thread_num_) k} {body : Body ε α ξ k} {j : Nat}
    (hm : m.executor e = SimpleExecutor.executor pool) (hn : thread_num_ pool < 2 ^ 30) (hr : m.system.Reachable s₁)
    (ht : s₁.tokens[j]? = some ⟨.running t, .coro c⟩) (hc : s₁.cells[c]? = some (.lazy f)) (hp : f.stage = .running body)
    (he : f.executor_ = some e) (hin : t.WorksFor pool) (hb : body.Returns e False fun _ => True)
    (hs : m.system.step s₁ (.step j env) = some s₂)
    (hr' : ((m.system.restrict fun s a => s.rests c a).startingAt s₂).Reachable s₃)
    (ht' : ⟨.running t', .coro c⟩ ∈ s₃.tokens) : t' = t := by
  have hf := (Setup.step_cases hs).left
  obtain ⟨w, rfl⟩ := hin
  have h := Lives.settle (P := .worker hm hn) (w := w) (.reachable hr) (.reachable hr) hf ht hc he (.inl rfl) rfl
  exact ((h.leave ht hc hp hb hs).rests hr').on ht'

-- An external awaiter resumes the coroutine outside of the pool. It yields after that.

def secondWorker : Thread SimpleExecutor.twoWorkers :=
  .worker () ⟨1, by decide⟩

def onWorkers (program : Body Unit Unit Unit .void) : Setup Unit Unit Unit (Thread SimpleExecutor.twoWorkers) (BitVec 64) where
  executor   := SimpleExecutor.executor
  kind       := .void
  program    := program
  reschedule := true
  executor_  := some ()
  thread     := .other

def stepOnWorkers : Action Unit Unit (Thread SimpleExecutor.twoWorkers) :=
  .step 0 ⟨true, .suspended, .value none⟩

def awaitOutside : Body Unit Unit Unit .void :=
  .awaitExternal .void fun _ => .yield .coReturnVoid

def awaitOutsideState (n : Nat) : Config Unit Unit Unit (Thread SimpleExecutor.twoWorkers) (BitVec 64) :=
  (onWorkers awaitOutside).system.after ([stepOnWorkers, .run 0 secondWorker] ++ List.replicate n stepOnWorkers)

def awaitOutsideRest : System (Config Unit Unit Unit (Thread SimpleExecutor.twoWorkers) (BitVec 64))
    (Action Unit Unit (Thread SimpleExecutor.twoWorkers)) :=
  ((onWorkers awaitOutside).system.restrict fun s a => s.rests 1 a).startingAt (awaitOutsideState 2)

theorem affine_worker_outside : ∃ t, ⟨.running t, .coro 1⟩ ∈
    (awaitOutsideRest.after [.run 0 .other, stepOnWorkers, .run 0 secondWorker]).tokens ∧ t = secondWorker := by
  have hs : (onWorkers awaitOutside).system.step (awaitOutsideState 1) stepOnWorkers = some (awaitOutsideState 2) := rfl
  have ht : ⟨.running secondWorker, .coro 1⟩ ∈
      (awaitOutsideRest.after [.run 0 .other, stepOnWorkers, .run 0 secondWorker]).tokens := List.mem_singleton_self _
  have hb : awaitOutside.Returns () False fun _ => True := fun _ => trivial
  have hn : SimpleExecutor.twoWorkers () < 2 ^ 30 := by decide
  exact ⟨_, ht, affine_worker (j := 0) rfl hn (System.reachable_after ..) rfl rfl rfl rfl ⟨_, rfl⟩ hb hs
    (System.reachable_after ..) ht⟩

-- All coroutines that inherit the executor from the one that `Via` binds to it always run on the same worker,
-- if this one never leaves it by itself.
theorem inherits_worker (hm : m.executor e = SimpleExecutor.executor pool) (hn : thread_num_ pool < 2 ^ 30)
    (he : m.executor_ = some e) (hr : m.reschedule) (hb : m.program.Stays e False) (h₁ : m.system.Reachable s₁)
    (h₂ : (m.system.startingAt s₁).Reachable s₂) (hd₁ : s₁.Inherits 1 d₁) (hd₂ : s₂.Inherits 1 d₂)
    (ht₁ : ⟨.running t₁, .coro d₁⟩ ∈ s₁.tokens) (ht₂ : ⟨.running t₂, .coro d₂⟩ ∈ s₂.tokens) :
    t₁.WorksFor pool ∧ t₂ = t₁ ∧
      ∀ {k} {f : Frame ε α ξ (Thread thread_num_) k}, s₂.cells[d₂]? = some (.lazy f) → f.executor_ = some e := by
  have hin (t : Thread thread_num_) (h : (m.executor e).currentThreadInExecutor t) :
      ∃ i, (Places.worker hm hn).On i t :=
    SimpleExecutor.worksFor_of_current (by rwa [hm] at h)
  obtain ⟨i, hl⟩ := (Starts.reachable hin hb he hr h₁).lives hd₁ ht₁
  have hl₁ := (hl.inherits hd₁ ht₁).on ht₁
  have hl₂ := (hl.run h₂).inherits hd₂ ht₂
  exact ⟨⟨i, hl₁⟩, (hl₂.on ht₂).trans hl₁.symm, hl₂.executor_⟩

-- A child is resumed outside of the pool, and comes to its end.

def awaitInherited : Body Unit Unit Unit .void :=
  .await (.awaitExternal .void fun _ => .coReturnVoid : Body Unit Unit Unit .void) fun _ => .coReturnVoid

def awaitInheritedState (n : Nat) : Config Unit Unit Unit (Thread SimpleExecutor.twoWorkers) (BitVec 64) :=
  (onWorkers awaitInherited).system.after ([stepOnWorkers, .run 0 secondWorker] ++ List.replicate n stepOnWorkers)

def awaitInheritedRest : System (Config Unit Unit Unit (Thread SimpleExecutor.twoWorkers) (BitVec 64))
    (Action Unit Unit (Thread SimpleExecutor.twoWorkers)) :=
  (onWorkers awaitInherited).system.startingAt (awaitInheritedState 2)

theorem inherits_worker_outside : ∃ t₁ t₂, ⟨.running t₁, .coro 2⟩ ∈ (awaitInheritedState 2).tokens ∧
    ⟨.running t₂, .coro 1⟩ ∈ (awaitInheritedRest.after
      ([stepOnWorkers, stepOnWorkers, .run 0 .other, stepOnWorkers, .run 0 secondWorker] ++
        List.replicate 2 stepOnWorkers)).tokens ∧ t₁.WorksFor () ∧ t₂ = t₁ := by
  have ht₁ : ⟨.running secondWorker, .coro 2⟩ ∈ (awaitInheritedState 2).tokens := List.mem_singleton_self _
  have ht₂ : ⟨.running secondWorker, .coro 1⟩ ∈ (awaitInheritedRest.after
      ([stepOnWorkers, stepOnWorkers, .run 0 .other, stepOnWorkers, .run 0 secondWorker] ++
        List.replicate 2 stepOnWorkers)).tokens := List.mem_singleton_self _
  have hn : SimpleExecutor.twoWorkers () < 2 ^ 30 := by decide
  have hb : awaitInherited.Stays () False := ⟨fun _ => trivial, fun _ => trivial⟩
  have h := inherits_worker rfl hn rfl rfl hb (System.reachable_after ..) (System.reachable_after ..)
    (.await rfl rfl .self) .self ht₁ ht₂
  exact ⟨_, _, ht₁, ht₂, h.left, h.right.left⟩

end Lazy
end AsyncSimple
