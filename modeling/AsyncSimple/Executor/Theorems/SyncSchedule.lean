import AsyncSimple.Executor.Theorems.AtomicPool

open Transition

namespace AsyncSimple
namespace SyncSchedule

variable {n : Nat} {φ χ ι : Type} {m : AtomicPool.Setup n φ χ ι} {s : Config n φ χ ι} {t : AtomicPool.Config n φ χ ι}

def Code.sem : Code n χ ι → Option (ThreadPool.Thread n ι)
  | .user sem _    => sem
  | .acquire sem _ => sem
  | .refused sem _ => sem
  | .release sem   => some sem

-- The semaphore that a worker will release, after the function that it has taken.
def workerSem : ThreadPool.WorkerPc n (Func n φ ι) (Code n χ ι) → Option (ThreadPool.Thread n ι)
  | .run item             => item.fn.sem
  | .user (.code c)       => c.sem
  | .user (.schedule k _) => (k .kErrorNone).sem
  | _                     => none

namespace Config

-- A function that is followed by the release of the semaphore of `th` is still to be run, or is running.
def Refers (s : Config n φ χ ι) (th : ThreadPool.Thread n ι) : Prop :=
  (∃ v, ∃ item ∈ (s.pool.queues_ v).queue_, item.fn.sem = some th) ∨ (∃ w, workerSem (s.pool.worker w) = some th)

-- A thread is in `acquire`.
def Waits (s : Config n φ χ ι) (th : ThreadPool.Thread n ι) : Prop :=
  ∃ sem k, s.userPc th = some (.code (.acquire sem k))

-- An assertion of `ScheduleById` has failed in a thread.
def Aborted (s : Config n φ χ ι) : Prop :=
  ∃ th, s.userPc th = some .aborted

-- A worker waits in a call of `SyncSchedule`, while the function of such a call is in its queue.
def Deadlocked (s : Config n φ χ ι) : Prop :=
  ∃ w, s.Waits (.inl w) ∧ ∃ item ∈ (s.pool.queues_ w).queue_, ∃ th, item.fn.sem = some th ∧ s.Waits th

-- The workers wait for items, and the clients have returned.
def Done (s : Config n φ χ ι) : Prop :=
  (∀ w, s.pool.worker w = .pop ∧ (s.pool.queues_ w).queue_ = []) ∧ (∀ i, s.pool.client i = none)

end Config

-- What `SyncSchedule` promises to its caller: as long as its function is still to be run, or is running, the caller is
-- blocked, so that its semaphore is there. And if the caller is blocked, then either this is the case, or it can return,
-- and the function has been called once.
structure Synced (s : Config n φ χ ι) (th : ThreadPool.Thread n ι) : Prop where
  blocked : s.Refers th → s.Waits th ∧ s.sems th = some 0
  waiting : s.Waits th →
    s.Refers th ∨ s.Aborted ∨ (s.sems th = some 1 ∧ ¬s.Refers th ∧ s.pool.timesRun (s.calls th) = 1)

theorem Names.number (h : Names W (some th) o) : ∃ j, o = some j ∧ W th = some j := by
  cases h
  exact ⟨_, rfl, ‹_›⟩

theorem Names.thread (h : Names W sem (some j)) : ∃ th, sem = some th ∧ W th = some j := by
  cases h
  exact ⟨_, rfl, ‹_›⟩

namespace Refines

theorem waits (h : Refines m s t) (hw : s.Waits th) : ∃ j, t.waits th = some j := by
  obtain ⟨sem, k, hpc⟩ := hw
  cases th <;> simp only [Config.userPc] at hpc
  case inl w =>
    have hr := h.worker w
    split at hpc <;> cases hpc
    case h_1 hp =>
    cases ht : t.worker w <;> rw [hp, ht] at hr <;> cases hr
    case user hu =>
    cases hu
    exact ⟨_, by rw [AtomicPool.Config.waits, ht]; rfl⟩
  case inr i =>
    have hr := h.client i
    cases ht : t.client i <;> rw [hpc, ht] at hr <;> cases hr
    case some hu =>
    cases hu
    exact ⟨_, by rw [AtomicPool.Config.waits, ht]; rfl⟩

theorem waits_of (h : Refines m s t) (hw : t.waits th = some j) : s.Waits th := by
  cases th <;> simp only [AtomicPool.Config.waits] at hw
  case inl w =>
    have hr := h.worker w
    generalize t.worker w = pc' at hr hw
    generalize hp : s.pool.worker w = pc at hr
    cases hr
    case user hu =>
      cases hu
      case acquire => exact ⟨_, _, Config.userPc_worker hp⟩
      all_goals contradiction
    all_goals contradiction
  case inr i =>
    have hr := h.client i
    generalize t.client i = pc' at hr hw
    generalize hp : s.pool.client i = pc at hr
    cases hr
    case some hu =>
      cases hu
      case acquire => exact ⟨_, _, hp⟩
      all_goals contradiction
    case none => contradiction

theorem names (hr : Worker.Refines m W th c pc pc') :
    Names W (workerSem pc) pc'.sem ∨ pc = .user .aborted := by
  cases hr
  case run h     => exact .inl h.sem
  case release h => exact .inl (.some h)
  case user hn hu =>
    cases hu
    case schedule hi _ _ =>
      refine .inl ?_
      obtain ⟨k', _, _, rfl⟩ | ⟨k', _, _, _, rfl⟩ := instr_scheduleById hi
      · exact hn
      · exact hn
    case aborted => exact .inr rfl
    all_goals exact .inl hn
  all_goals exact .inl .none

theorem refers (h : Refines m s t) (hr : s.Refers th) : ∃ j, t.waits th = some j ∧ t.Refers j := by
  obtain ⟨v, item, hi, hsem⟩ | ⟨w, hsem⟩ := hr
  · obtain ⟨item', hi', hrel⟩ := exists_mem (h.shared.queue v) hi
    obtain ⟨j, hj, ho⟩ := Names.number (hsem ▸ hrel.sem)
    exact ⟨j, ho, .inl ⟨v, item', hi', hj⟩⟩
  · obtain hn | hp := names (h.worker w)
    · obtain ⟨j, hj, ho⟩ := Names.number (hsem ▸ hn)
      exact ⟨j, ho, .inr ⟨w, hj⟩⟩
    · rw [hp] at hsem
      contradiction

theorem refers_of (h : Refines m s t) (hr : t.Refers j) : s.Aborted ∨ ∃ th, t.waits th = some j ∧ s.Refers th := by
  obtain ⟨v, item', hi', hsem⟩ | ⟨w, hsem⟩ := hr
  · obtain ⟨item, hi, hrel⟩ := exists_mem (h.shared.queue v).flip hi'
    obtain ⟨th, ho, hw⟩ := Names.thread (hsem ▸ hrel.sem)
    exact .inr ⟨th, hw, .inl ⟨v, item, hi, ho⟩⟩
  · obtain hn | hp := names (h.worker w)
    · obtain ⟨th, ho, hw⟩ := Names.thread (hsem ▸ hn)
      exact .inr ⟨th, hw, .inr ⟨w, ho⟩⟩
    · exact .inl ⟨.inl w, Config.userPc_worker hp⟩

theorem aborted (h : Refines m s t) (ha : t.Aborted) : s.Aborted := by
  obtain ⟨w, o, hw⟩ | ⟨i, hc⟩ := ha
  · have hr := h.worker w
    generalize hp : s.pool.worker w = pc at hr
    rw [hw] at hr
    cases hr
    case user hu =>
    cases hu
    exact ⟨.inl w, Config.userPc_worker hp⟩
  · have hr := h.client i
    generalize hp : s.pool.client i = pc at hr
    rw [hc] at hr
    cases hr
    case some hu =>
    cases hu
    exact ⟨.inr i, hp⟩

theorem deadlocked (h : Refines m s t) (hd : t.Deadlocked) : s.Deadlocked := by
  obtain ⟨w, hw, item', hi', j, th, hsem, ht⟩ := hd
  obtain ⟨j', hj'⟩ := Option.isSome_iff_exists.mp hw
  obtain ⟨item, hi, hrel⟩ := exists_mem (h.shared.queue w).flip hi'
  obtain ⟨th', ho, ht'⟩ := Names.thread (hsem ▸ hrel.sem)
  have hw : t.waits (.inl w) = some j' := hj'
  exact ⟨w, h.waits_of hw, item, hi, th', ho, h.waits_of ht'⟩

theorem timesRun (h : Refines m s t) : t.pool.timesRun j = s.pool.timesRun j := by
  rw [AtomicPool.Pool.timesRun, h.shared.runs]
  rfl

theorem synced (h : Refines m s t) (th : ThreadPool.Thread n ι) : Synced s th where
  blocked hr := by
    obtain ⟨j, hw, hr⟩ := h.refers hr
    exact ⟨h.waits_of hw, (h.shared.sems hw).trans (h.inv.sem_of_refers hr)⟩
  waiting hw := by
    obtain ⟨j, hw⟩ := h.waits hw
    obtain hr | ⟨hs, hr, hrun⟩ := (h.inv.synced j).waiting hw
    · obtain ha | ⟨th', hw', hr⟩ := h.refers_of hr
      · exact .inr (.inl ha)
      · exact .inl (h.inv.waiting.unique hw' hw ▸ hr)
    · refine .inr (.inr ⟨(h.shared.sems hw).trans hs, fun hr' => ?_, ?_⟩)
      · obtain ⟨j', hw', hr'⟩ := h.refers hr'
        obtain rfl : j' = j := Option.some.inj (hw'.symm.trans hw)
        exact hr hr'
      · rw [h.shared.calls hw, ← h.timesRun, hrun]

variable [DecidableEq ι] [NeZero n]

-- Code that cannot take a step has aborted, or is in `acquire`.
theorem blocked (h : Refines m s t) (hr : Code.Refines m th (s.sems th) sem pc upc) (hw : t.waits th = upc.waits)
    (hn : stepSems m s.sems th pc = none ∨ (setup m th).stepUser s.pool ⟨true, 0⟩ pc = none) : upc.Blocked t.pool := by
  cases hr
  case aborted => exact .aborted
  case acquire k j =>
    refine .acquire fun c hj => ?_
    rw [← h.shared.sems hw] at hj
    simp [stepSems, hj, ThreadPool.Setup.stepUser, setup, instr] at hn
  case user c =>
    cases hi : m.instr c <;> simp only [stepSems, ThreadPool.Setup.stepUser, setup, instr, hi] at hn
    case ret => cases sem <;> simp at hn
    case scheduleById fn _ _ => cases fn <;> simp at hn
    all_goals simp at hn
  case schedule => simp [stepSems, ThreadPool.Setup.stepUser] at hn
  case refused  => simp [stepSems, ThreadPool.Setup.stepUser, setup, instr] at hn

variable (hr : ∀ a, a ≠ .destructor → (system m).step s a = none)

include hr

-- When no thread can take a step, the workers that look for an item wait for one in their own queue.
theorem worker_pop (h : Refines m s t) (ht : t.worker w = .idle) :
    s.pool.worker w = .pop ∧ (s.pool.queues_ w).queue_ = [] := by
  have hw := h.worker w
  have hn := step_none (a := .worker w ⟨true, 0⟩) rfl (hr _ (ne_destructor rfl))
  rw [ht] at hw
  cases hp : s.pool.worker w <;> rw [hp] at hw <;> cases hw <;>
    simp only [Config.userPc, hp, Option.elim_none, reduceCtorEq, false_or, ThreadPool.Setup.system,
      ThreadPool.Setup.stepWorker] at hn
  case steal => split at hn <;> (try split at hn) <;> contradiction
  case pop =>
    refine ⟨rfl, ?_⟩
    cases hq : (s.pool.queues_ w).queue_
    case nil  => rfl
    case cons => simp [ThreadsafeQueue.pop, hq] at hn

theorem resting (h : Refines m s t) : t.Resting where
  worker w := by
    have hw := h.worker w
    have hn := step_none (a := .worker w ⟨true, 0⟩) rfl (hr _ (ne_destructor rfl))
    cases ht : t.worker w <;> rw [ht] at hw
    case idle =>
      have hq := h.shared.queue w
      rw [(worker_pop hr h ht).right] at hq
      exact .idle (List.forall₂_nil_left_iff.mp hq)
    case left => exact .left
    case user o upc =>
      generalize hp : s.pool.worker w = pc at hw
      cases hw
      case user hu =>
      have hw : t.waits (.inl w) = upc.waits := by simp [AtomicPool.Config.waits, ht, AtomicPool.WorkerPc.waits]
      refine .user (h.blocked hu hw ?_)
      simp only [Config.userPc, hp, Option.elim_some, ThreadPool.Setup.system, ThreadPool.Setup.stepWorker] at hn
      refine hn.imp_right fun hn => ?_
      split at hn <;> first | contradiction | assumption
    all_goals
      generalize hp : s.pool.worker w = pc at hw
      cases hw
      simp [Config.userPc, hp, ThreadPool.Setup.system, ThreadPool.Setup.stepWorker, stepSems, ThreadPool.Setup.stepUser,
        setup, instr] at hn
  client i upc hc := by
    have hu := h.client i
    have hn := step_none (a := .client i ⟨true, 0⟩) rfl (hr _ (ne_destructor rfl))
    generalize hp : s.pool.client i = pc at hu
    rw [hc] at hu
    cases hu
    case some hu =>
    have hw : t.waits (.inr i) = upc.waits := by simp [AtomicPool.Config.waits, hc]
    refine h.blocked hu hw ?_
    simpa [Config.userPc, hp, ThreadPool.Setup.system, ThreadPool.Setup.stepClient] using hn

theorem done (h : Refines m s t) (hd : t.Done) : s.Done where
  left w  := worker_pop hr h (hd.left w).left
  right i := by
    have hu := h.client i
    rw [hd.right i] at hu
    generalize s.pool.client i = pc at hu ⊢
    cases hu
    rfl

theorem done_or_stuck (h : Refines m s t) (hs : s.pool.stop_ = false) : s.Done ∨ s.Aborted ∨ s.Deadlocked := by
  obtain hd | ha | hd := (resting hr h).done_or_stuck h.inv (h.shared.stop_.trans hs)
  · exact .inl (done hr h hd)
  · exact .inr (.inl (h.aborted ha))
  · exact .inr (.inr (h.deadlocked hd))

end Refines

section Main

variable [NeZero n] [DecidableEq ι]

theorem syncSchedule_safe (h : (system m).Reachable s) (th : ThreadPool.Thread n ι) : Synced s th := by
  obtain ⟨t, _, hr⟩ := Refines.reachable h
  exact hr.synced th

-- When nothing but the destructor can take a step any more, then everything has been done, or an assertion has failed, or
-- a worker is blocked, in whose queue is a function that a thread waits for.
theorem syncSchedule_stuck (h : (system m).Reachable s) (hs : s.pool.stop_ = false)
    (hr : ∀ a, a ≠ .destructor → (system m).step s a = none) : s.Done ∨ s.Aborted ∨ s.Deadlocked := by
  obtain ⟨t, _, h⟩ := Refines.reachable h
  exact h.done_or_stuck hr hs

-- When only other threads call `SyncSchedule`, none of them waits in vain.
theorem syncSchedule_outside {code : χ → Prop} (ha : m.Asynchronous code) (he : ∀ fn, code (m.entry fn))
    (h : (system m).Reachable s) (hs : s.pool.stop_ = false)
    (hr : ∀ a, a ≠ .destructor → (system m).step s a = none) : s.Done ∨ s.Aborted := by
  obtain ⟨t, ht, h⟩ := Refines.reachable h
  obtain hd | ha' | ⟨w, hw, _⟩ := h.done_or_stuck hr hs
  · exact .inl hd
  · exact .inr ha'
  · obtain ⟨j, hj⟩ := h.waits hw
    have hn := (AtomicPool.Config.Asynchronous.reachable ha he ht).not_waits w
    simp [AtomicPool.Config.waits, hn] at hj

end Main

def clientSteps (k : Nat) : List (ThreadPool.Action 1 Unit) :=
  List.replicate k (.client () ⟨true, 0⟩)

def workerSteps (w : Fin 1) (k : Nat) : List (ThreadPool.Action 1 Unit) :=
  List.replicate k (.worker w ⟨true, 0⟩)

-- The client waits for `outer`, which the worker has called.
def syncRun (w : Fin 1) : List (ThreadPool.Action 1 Unit) :=
  clientSteps 3 ++ workerSteps w 3

theorem rest_of_single {φ χ : Type} {m : AtomicPool.Setup 1 φ χ Unit} {s : Config 1 φ χ Unit}
    (hw : ∀ r, step m s (.worker 0 r) = none) (hc : ∀ r, step m s (.client () r) = none)
    (a : ThreadPool.Action 1 Unit) (ha : a ≠ .destructor) : (system m).step s a = none := by
  cases a
  case worker w r => exact Subsingleton.elim 0 w ▸ hw r
  case client     => exact hc _
  case destructor => contradiction

theorem syncSchedule_safe_running :
    let s := (system (syncSetup false)).after (syncRun 0)
    s.Refers (.inr ()) ∧ Synced s (.inr ()) :=
  ⟨.inr ⟨0, rfl⟩, syncSchedule_safe (System.reachable_after _ _) (.inr ())⟩

-- The only worker waits for `inner`, which is in its own queue.
theorem syncSchedule_stuck_nested :
    let s := (system (syncSetup true)).after (syncRun 0 ++ workerSteps 0 3)
    s.Waits (.inl 0) ∧ (s.Done ∨ s.Aborted ∨ s.Deadlocked) := by
  have hr := rest_of_single (m := syncSetup true)
    (s := (system (syncSetup true)).after (syncRun 0 ++ workerSteps 0 3)) (fun _ => rfl) (fun _ => rfl)
  exact ⟨⟨_, _, rfl⟩, syncSchedule_stuck (System.reachable_after _ _) rfl hr⟩

-- `outer` does not call `SyncSchedule`, and the client returns.
theorem syncSchedule_outside_client :
    let s := (system (syncSetup false)).after (syncRun 0 ++ workerSteps 0 3 ++ clientSteps 2)
    s.pool.timesRun 0 = 1 ∧ (s.Done ∨ s.Aborted) := by
  have ha : (syncSetup false).Asynchronous (· = none) := by
    constructor <;> rintro c <;> intros <;> simp_all [syncSetup]
  have he (fn : Task) : (syncSetup false).entry fn = none := by cases fn <;> rfl
  have hr := rest_of_single (m := syncSetup false)
    (s := (system (syncSetup false)).after (syncRun 0 ++ workerSteps 0 3 ++ clientSteps 2)) (fun _ => rfl) (fun _ => rfl)
  exact ⟨rfl, syncSchedule_outside ha he (System.reachable_after _ _) rfl hr⟩

end SyncSchedule
end AsyncSimple
