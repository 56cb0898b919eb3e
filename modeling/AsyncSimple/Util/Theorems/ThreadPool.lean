import AsyncSimple.Lib.Count
import AsyncSimple.Util.ThreadPool

open Transition

namespace AsyncSimple
namespace ThreadPool

variable {n : Nat} {φ χ ι : Type}

-- The queue into which a step of user code pushes an item.
def UserPc.target [NeZero n] (r : Reply) : UserPc n φ χ → Option (Fin n)
  | .schedule _ (.tryPush _ i) => if i < n * 2 ∧ r.lock then some (Fin.ofNat n i) else none
  | .schedule _ (.push _ _ id) => some id
  | _                          => none

def WorkerPc.hasLeft : WorkerPc n φ χ → Bool
  | .left => true
  | _     => false

namespace Config

def target [NeZero n] (s : Config n φ χ ι) : Action n ι → Option (Fin n)
  | .worker id r => match s.worker id with | .user pc => pc.target r | _ => none
  | .client i r  => (s.client i).bind (·.target r)
  | .destructor  => none

-- The number of times that the function given to the `k`th call of `ScheduleById` has been called.
def timesRun (s : Config n φ χ ι) (k : Nat) : Nat :=
  s.runs.countP (·.snd = k)

end Config

-- An item is only ever pushed into a queue whose own worker has not left `WorkerThreadMain`.
def ReachesWorker [NeZero n] (s : Config n φ χ ι) (a : Action n ι) : Prop :=
  (s.target a).all fun id => !(s.worker id).hasLeft

instance [NeZero n] (s : Config n φ χ ι) (a : Action n ι) : Decidable (ReachesWorker s a) :=
  inferInstanceAs (Decidable (_ = true))

-- What `Executor::Schedule` promises, where `true` stands for `kErrorNone`.
structure Contract (s : Config n φ χ ι) : Prop where
  accepted : s.results[k]? = some .kErrorNone → s.destructor = .finished → s.timesRun k = 1
  refused  : s.results[k]? = some e → e ≠ .kErrorNone → s.timesRun k = 0

-- An accepted call leaves one token, which is its item in a queue at first, then the item held by a
-- worker that is about to run it, and at last the entry in the record of the runs.

def queued (k : Nat) (q : ThreadsafeQueue (WorkItem φ)) : Nat :=
  q.queue_.countP (·.call = k)

def WorkerPc.held (k : Nat) : WorkerPc n φ χ → Nat
  | .run item => if item.call = k then 1 else 0
  | _         => 0

@[simp]
theorem WorkerPc.held_run :
    (WorkerPc.run item : WorkerPc n φ χ).held k = if item.call = k then 1 else 0 := rfl

@[simp]
theorem WorkerPc.held_user : (WorkerPc.user pc : WorkerPc n φ χ).held k = 0 := rfl

@[simp]
theorem WorkerPc.held_left : (WorkerPc.left : WorkerPc n φ χ).held k = 0 := rfl

namespace Config

def tokens (s : Config n φ χ ι) (k : Nat) : Nat :=
  s.timesRun k + ∑ id, queued k (s.queues_ id) + ∑ id, (s.worker id).held k

def accepted (s : Config n φ χ ι) (k : Nat) : Nat :=
  if s.results[k]? = some .kErrorNone then 1 else 0

variable {s : Config n φ χ ι} {id : Fin n} {q : ThreadsafeQueue (WorkItem φ)}

theorem tokens_setQueue (s : Config n φ χ ι) (id : Fin n) (q : ThreadsafeQueue (WorkItem φ))
    (k : Nat) :
    (s.setQueue id q).tokens k + queued k (s.queues_ id) = s.tokens k + queued k q := by
  have := Count.sum_update (queued k) s.queues_ id q
  simp only [tokens, setQueue, timesRun]
  omega

theorem tokens_setWorker (s : Config n φ χ ι) (id : Fin n) (pc : WorkerPc n φ χ) (k : Nat) :
    (s.setWorker id pc).tokens k + (s.worker id).held k = s.tokens k + pc.held k := by
  have := Count.sum_update (WorkerPc.held k) s.worker id pc
  simp only [tokens, setWorker, timesRun]
  omega

theorem tokens_runs :
    { s with runs := s.runs ++ [(id, call)] }.tokens k = s.tokens k + if call = k then 1 else 0 := by
  simp only [tokens, timesRun, List.countP_append, List.countP_singleton, decide_eq_true_eq]
  omega

@[simp]
theorem accepted_setQueue : (s.setQueue id q).accepted k = s.accepted k := rfl

@[simp]
theorem accepted_setClient [DecidableEq ι] {i : ι} : (s.setClient i pc).accepted k = s.accepted k := rfl

@[simp]
theorem accepted_setWorker : (s.setWorker id pc).accepted k = s.accepted k := rfl

@[simp]
theorem worker_setQueue : (s.setQueue id q).worker = s.worker := rfl

@[simp]
theorem tokens_setClient [DecidableEq ι] {i : ι} : (s.setClient i pc).tokens k = s.tokens k := rfl

@[simp]
theorem tokens_result : (s.result e).tokens k = s.tokens k := rfl

theorem accepted_result :
    (s.result e).accepted k = s.accepted k + if s.results.length = k ∧ e = .kErrorNone then 1 else 0 := by
  simp only [accepted, result, List.getElem?_append]
  split
  case isTrue h => simp [show s.results.length ≠ k by omega]
  case isFalse h =>
    rw [List.getElem?_eq_none (by omega : s.results.length ≤ k)]
    obtain rfl | hk := Nat.eq_or_lt_of_not_lt h
    · simp
    · rw [List.getElem?_eq_none (by simp; omega)]
      simp
      omega

end Config

section Queued

variable {q q₁ q₂ : ThreadsafeQueue (WorkItem φ)} {item : WorkItem φ}

@[simp]
theorem queued_push :
    queued k (q.push item) = queued k q + if item.call = k then 1 else 0 := by
  simp [queued, ThreadsafeQueue.push, List.countP_append, List.countP_cons]

theorem queued_cons (h : q₁.queue_ = item :: q₂.queue_) :
    queued k q₁ = queued k q₂ + if item.call = k then 1 else 0 := by
  simp [queued, h, List.countP_cons]

end Queued

-- What a step of user code does to the pool, where `target` is the queue it pushes into, if any.
inductive UserEffect (s : Config n φ χ ι) : (target : Option (Fin n)) → Config n φ χ ι → Prop
  | skip : UserEffect s none s
  | refuse : (e ≠ .kErrorNone) → UserEffect s none (s.result e)
  | push {item} {id : Fin n} :
    (item.call = s.results.length) →
    UserEffect s (some id) ((s.setQueue id ((s.queues_ id).push item)).result .kErrorNone)

-- The places of a worker that neither hold an item, nor are outside of `WorkerThreadMain`.
inductive WorkerPc.Plain : WorkerPc n φ χ → Prop
  | top   : Plain .top
  | steal : Plain (.steal i)
  | pop   : Plain .pop
  | user  : Plain (.user pc)

theorem WorkerPc.Plain.held {pc : WorkerPc n φ χ} (h : pc.Plain) : pc.held k = 0 := by
  cases h <;> rfl

theorem WorkerPc.Plain.not_left {pc : WorkerPc n φ χ} (h : pc.Plain) : pc.hasLeft = false := by
  cases h <;> rfl

-- What a step of a worker does to the pool.
inductive WorkerEffect [NeZero n] (s : Config n φ χ ι) (id : Fin n) (r : Reply) : Config n φ χ ι → Prop
  | goto :
    ((s.worker id).Plain) → (pc.Plain) → WorkerEffect s id r (s.setWorker id pc)
  | take {victim : Fin n} :
    ((s.worker id).Plain) → ((s.queues_ victim).queue_ = item :: q.queue_) →
    WorkerEffect s id r ((s.setQueue victim q).setWorker id (.run item))
  | run :
    (s.worker id = .run item) → (pc.Plain) →
    WorkerEffect s id r ({ s with runs := s.runs ++ [(id, item.call)] }.setWorker id pc)
  | user :
    (s.worker id = .user pc₁) → (UserEffect s (pc₁.target r) s') → (pc.Plain) →
    WorkerEffect s id r (s'.setWorker id pc)
  | leave :
    ((s.worker id).Plain) → ((s.queues_ id).queue_ = []) →
    WorkerEffect s id r (s.setWorker id .left)

variable {m : Setup n φ χ ι} {s s₁ s₂ : Config n φ χ ι} {id : Fin n}

theorem stepSchedule_effect [NeZero n] {pc : SchedulePc n φ} :
    UserEffect s ((UserPc.schedule k pc).target r) (m.stepSchedule s k r pc).1 := by
  cases pc
  case readStop fn id =>
    simp only [Setup.stepSchedule, UserPc.target]
    repeat' split
    all_goals first | exact .skip | exact .refuse nofun
  case tryPush fn i =>
    simp only [Setup.stepSchedule, UserPc.target, ThreadsafeQueue.tryPush]
    by_cases hi : i < n * 2 <;> cases r.lock <;> simp only [hi, if_true, if_false]
    case pos.true => exact .push rfl
    all_goals exact .skip
  case push => exact .push rfl

theorem stepUser_effect [NeZero n] (h : m.stepUser s₁ r pc₁ = some (s₂, pc₂)) :
    UserEffect s₁ (pc₁.target r) s₂ := by
  cases pc₁
  case code c =>
    simp only [Setup.stepUser] at h
    split at h <;> cases h
    case h_4 => exact .refuse nofun
    all_goals exact .skip
  case schedule k pc =>
    cases h
    exact stepSchedule_effect
  case aborted => contradiction

namespace UserEffect

theorem worker (e : UserEffect s₁ t s₂) : s₂.worker = s₁.worker := by
  cases e <;> rfl

theorem destructor (e : UserEffect s₁ t s₂) : s₂.destructor = s₁.destructor := by
  cases e <;> rfl

theorem tokens (e : UserEffect s₁ t s₂) (k : Nat) :
    s₂.tokens k + s₁.accepted k = s₁.tokens k + s₂.accepted k := by
  cases e
  case skip => rfl
  case refuse e h => simp [Config.accepted_result, h]
  case push item id h =>
    have := s₁.tokens_setQueue id ((s₁.queues_ id).push item) k
    have ha : (s₁.setQueue id ((s₁.queues_ id).push item)).accepted k = s₁.accepted k := rfl
    have hr : (s₁.setQueue id ((s₁.queues_ id).push item)).results = s₁.results := rfl
    simp only [queued_push, Config.tokens_result, Config.accepted_result, and_true, h, ha, hr] at *
    omega

theorem queue_nil (e : UserEffect s₁ t s₂) (ht : t ≠ some id) (h : (s₁.queues_ id).queue_ = []) :
    (s₂.queues_ id).queue_ = [] := by
  cases e
  case push =>
    simp only [ne_eq, Option.some.injEq, eq_comm] at ht
    simpa [Config.setQueue, Config.result, Function.update_of_ne ht]
  all_goals exact h

end UserEffect

theorem stepWorker_effect [NeZero n] (h : m.stepWorker s₁ id r = some s₂) : WorkerEffect s₁ id r s₂ := by
  cases hp : s₁.worker id <;> simp only [Setup.stepWorker, hp] at h
  case top =>
    cases h
    refine .goto (hp ▸ .top) ?_
    split
    · exact .steal
    · exact .pop
  case steal i =>
    split at h
    case isTrue =>
      split at h <;> cases h
      case h_1 hq => exact .take (hp ▸ .steal) (ThreadsafeQueue.tryPopIf_some hq).left
      case h_2    => exact .goto (hp ▸ .steal) .steal
    case isFalse =>
      cases h
      exact .goto (hp ▸ .steal) .pop
  case pop =>
    split at h <;> cases h
    case h_1 hq => exact .take (hp ▸ .pop) (ThreadsafeQueue.pop_some hq)
    case h_2 hq => exact .leave (hp ▸ .pop) (ThreadsafeQueue.pop_none hq).left
  case run =>
    cases h
    exact .run hp .user
  case user =>
    split at h <;> cases h
    case h_1 hu => exact .user hp (stepUser_effect hu) .user
    case h_2 hu => exact .user hp (stepUser_effect hu) .top
  case left => contradiction

namespace WorkerEffect

variable [NeZero n]

theorem worker_ne (e : WorkerEffect s₁ id r s₂) (h : id' ≠ id) : s₂.worker id' = s₁.worker id' := by
  cases e
  case user _ e _ => simp [Config.setWorker, Function.update_of_ne h, e.worker]
  all_goals simp [Config.setWorker, Config.setQueue, Function.update_of_ne h]

theorem not_left (e : WorkerEffect s₁ id r s₂) : (s₁.worker id).hasLeft = false := by
  cases e
  case run h _    => rw [h]; rfl
  case user h _ _ => rw [h]; rfl
  case goto h _   => exact h.not_left
  case take h _   => exact h.not_left
  case leave h _  => exact h.not_left

theorem destructor (e : WorkerEffect s₁ id r s₂) : s₂.destructor = s₁.destructor := by
  cases e
  case user _ e _ => exact e.destructor
  all_goals rfl

theorem tokens (e : WorkerEffect s₁ id r s₂) (k : Nat) :
    s₂.tokens k + s₁.accepted k = s₁.tokens k + s₂.accepted k := by
  cases e
  case goto pc h₁ h₂ =>
    have := s₁.tokens_setWorker id pc k
    simp only [h₁.held, h₂.held, Config.accepted_setWorker] at this ⊢
    omega
  case take item q victim h₁ h₂ =>
    have := s₁.tokens_setQueue victim q k
    have := (s₁.setQueue victim q).tokens_setWorker id (.run item) k
    simp only [h₁.held, queued_cons h₂, Config.accepted_setWorker, Config.accepted_setQueue,
      Config.worker_setQueue, WorkerPc.held_run] at *
    omega
  case run item pc h₁ h₂ =>
    have := { s₁ with runs := s₁.runs ++ [(id, item.call)] }.tokens_setWorker id pc k
    simp only [h₁, h₂.held, Config.tokens_runs, WorkerPc.held_run, Config.accepted_setWorker] at this ⊢
    have ha : { s₁ with runs := s₁.runs ++ [(id, item.call)] }.accepted k = s₁.accepted k := rfl
    omega
  case user pc₁ s' pc h₁ e h₂ =>
    have := s'.tokens_setWorker id pc k
    have := e.tokens k
    simp only [e.worker, h₁, h₂.held, WorkerPc.held_user, Config.accepted_setWorker] at *
    omega
  case leave h₁ _ =>
    have := s₁.tokens_setWorker id .left k
    simp only [h₁.held, WorkerPc.held_left, Config.accepted_setWorker] at this ⊢
    omega

end WorkerEffect

-- The workers below this number have been joined.
def DestructorPc.joined (n : Nat) : DestructorPc → Nat
  | .join i   => i
  | .finished => n
  | _         => 0

-- What a step of the destructor does to the pool.
structure DestructorEffect (s₁ s₂ : Config n φ χ ι) : Prop where
  worker  : s₂.worker = s₁.worker
  queue   : ∀ id, (s₂.queues_ id).queue_ = (s₁.queues_ id).queue_
  results : s₂.results = s₁.results
  runs    : s₂.runs = s₁.runs
  joined  : ∀ id : Fin n, id < s₂.destructor.joined n →
            (id < s₁.destructor.joined n) ∨ (s₁.worker id).hasLeft

theorem stepDestructor_effect (h : Setup.stepDestructor s₁ = some s₂) : DestructorEffect s₁ s₂ := by
  cases hd : s₁.destructor <;> simp only [Setup.stepDestructor, hd] at h
  case start =>
    cases h
    exact ⟨rfl, fun _ => rfl, rfl, rfl, fun _ h => absurd h (Nat.not_lt_zero _)⟩
  case stop i =>
    split at h <;> cases h
    case isTrue hi =>
      refine ⟨rfl, fun id => ?_, rfl, rfl, fun _ h => absurd h (Nat.not_lt_zero _)⟩
      by_cases hid : id = ⟨i, hi⟩
      · subst hid
        simp [Config.setQueue, ThreadsafeQueue.stop]
      · simp [Config.setQueue, Function.update_of_ne hid]
    case isFalse => exact ⟨rfl, fun _ => rfl, rfl, rfl, fun _ h => absurd h (Nat.not_lt_zero _)⟩
  case join i =>
    split at h
    case isTrue hi =>
      split at h <;> cases h
      case h_1 hw =>
        refine ⟨rfl, fun _ => rfl, rfl, rfl, fun id h => ?_⟩
        simp only [DestructorPc.joined, hd] at h ⊢
        obtain h | h := Nat.lt_succ_iff_lt_or_eq.mp h
        · exact .inl h
        · rw [show id = ⟨i, hi⟩ from Fin.ext h, hw]
          exact .inr rfl
    case isFalse hi =>
      cases h
      refine ⟨rfl, fun _ => rfl, rfl, rfl, fun id _ => .inl ?_⟩
      simp only [DestructorPc.joined, hd]
      omega
  case finished => contradiction

theorem DestructorEffect.tokens (e : DestructorEffect s₁ s₂) (k : Nat) :
    s₂.tokens k + s₁.accepted k = s₁.tokens k + s₂.accepted k := by
  simp [Config.tokens, Config.accepted, Config.timesRun, queued, e.worker, e.queue, e.results,
    e.runs]

structure Inv (s : Config n φ χ ι) : Prop where
  tokens : ∀ k, s.tokens k = s.accepted k
  joined : ∀ id : Fin n, id < s.destructor.joined n → (s.worker id).hasLeft

namespace Inv

theorem init : Inv m.init where
  tokens := by simp [Config.tokens, Config.accepted, Config.timesRun, queued, Setup.init,
    ThreadsafeQueue.new, WorkerPc.held]
  joined := nofun

theorem left (i : Inv s) (h : s.destructor = .finished) (id : Fin n) : (s.worker id).hasLeft :=
  i.joined id <| by simp [h, DestructorPc.joined]

-- When the destructor has finished, the accepted functions have been run, except for those that are
-- left in a queue.
theorem finished (i : Inv s) (h : s.destructor = .finished) (k : Nat) :
    s.timesRun k + ∑ id, queued k (s.queues_ id) = s.accepted k := by
  have hw : ∑ id, (s.worker id).held k = 0 := by
    refine Finset.sum_eq_zero fun id _ => ?_
    have := i.left h id
    cases hp : s.worker id <;> simp_all [WorkerPc.hasLeft]
  have := i.tokens k
  simp only [Config.tokens] at this
  omega

theorem refused (i : Inv s) (h : s.results[k]? = some e) (he : e ≠ .kErrorNone) :
    s.timesRun k = 0 := by
  have := i.tokens k
  simp only [Config.tokens, Config.accepted, h, Option.some.injEq, he, if_false] at this
  omega

variable [NeZero n] [DecidableEq ι]

theorem step (i : Inv s₁) (h : m.system.step s₁ a = some s₂) : Inv s₂ := by
  cases a
  case worker id r =>
    have e := stepWorker_effect h
    refine ⟨fun k => ?_, fun id' hj => ?_⟩
    · have := e.tokens k
      have := i.tokens k
      omega
    · have hl := i.joined _ (e.destructor ▸ hj)
      rwa [e.worker_ne]
      rintro rfl
      simp [e.not_left] at hl
  case client c r =>
    simp only [Setup.system, Setup.stepClient] at h
    split at h
    case h_1 =>
      obtain ⟨⟨s, pc⟩, hu, rfl⟩ := Option.map_eq_some_iff.mp h
      have e := stepUser_effect hu
      refine ⟨fun k => ?_, fun id hj => ?_⟩
      · have := e.tokens k
        have := i.tokens k
        simp only [Config.tokens_setClient, Config.accepted_setClient]
        omega
      · exact congrFun e.worker id ▸ i.joined _ (e.destructor ▸ hj)
    case h_2 => contradiction
  case destructor =>
    have e := stepDestructor_effect h
    refine ⟨fun k => ?_, fun id hj => ?_⟩
    · have := e.tokens k
      have := i.tokens k
      omega
    · rw [e.worker]
      exact e.joined id hj |>.elim (i.joined id) fun h => h

theorem reachable (h : m.system.Reachable s) : Inv s :=
  h.invariant .init .step

end Inv

-- With the condition on pushes, no item outlives the worker of its queue.
def Drained (s : Config n φ χ ι) : Prop :=
  ∀ id, (s.worker id).hasLeft → (s.queues_ id).queue_ = []

theorem UserEffect.drained (e : UserEffect s₁ t s₂) (d : Drained s₁)
    (ht : t.all fun id => !(s₁.worker id).hasLeft) : Drained s₂ := by
  intro id hl
  rw [e.worker] at hl
  refine e.queue_nil ?_ (d id hl)
  rintro rfl
  simp [hl] at ht

theorem Drained.setWorker (d : Drained s) (h : pc.hasLeft → (s.queues_ id).queue_ = []) :
    Drained (s.setWorker id pc) := by
  intro id' hl
  by_cases hid : id' = id
  · subst hid
    exact h (by simpa [Config.setWorker] using hl)
  · exact d id' (by simpa [Config.setWorker, Function.update_of_ne hid] using hl)

theorem WorkerEffect.drained [NeZero n] (e : WorkerEffect s₁ id r s₂) (d : Drained s₁)
    (ht : ReachesWorker s₁ (.worker id r)) : Drained s₂ := by
  cases e
  case goto h        => exact d.setWorker (by simp [h.not_left])
  case leave h       => exact d.setWorker fun _ => h
  case run h         => exact d.setWorker (by simp [h.not_left])
  case user h₁ e h₂  =>
    refine (e.drained d ?_).setWorker (by simp [h₂.not_left])
    simpa [ReachesWorker, Config.target, h₁] using ht
  case take item q victim _ hq =>
    refine .setWorker (fun id' hl => ?_) nofun
    have := d id' hl
    by_cases hid : id' = victim
    · subst hid
      simp [hq] at this
    · simpa [Config.setQueue, Function.update_of_ne hid] using this

variable [NeZero n] [DecidableEq ι]

theorem Drained.step (d : Drained s₁) (hr : ReachesWorker s₁ a)
    (h : m.system.step s₁ a = some s₂) : Drained s₂ := by
  cases a
  case worker id r => exact stepWorker_effect h |>.drained d hr
  case client c r =>
    simp only [Setup.system, Setup.stepClient] at h
    split at h
    case h_1 hc =>
      obtain ⟨⟨s, pc⟩, hu, rfl⟩ := Option.map_eq_some_iff.mp h
      refine stepUser_effect hu |>.drained d ?_
      simpa [ReachesWorker, Config.target, hc] using hr
    case h_2 => contradiction
  case destructor =>
    have e := stepDestructor_effect h
    intro id hl
    rw [e.queue]
    exact d id (e.worker ▸ hl)

-- In every run that pushes no item into the queue of a worker that has left, the pool keeps the
-- contract of executors.
theorem scheduleById_contract (h : (m.system.restrict ReachesWorker).Reachable s) : Contract s := by
  have i := Inv.reachable h.of_restrict
  have d : Drained s := by
    refine h.invariant (fun _ _ => rfl) fun d hs => ?_
    obtain ⟨hr, hs⟩ := System.restrict_step.mp hs
    exact d.step hr hs
  refine ⟨fun {k} hk hf => ?_, i.refused⟩
  have hq : ∑ id, queued k (s.queues_ id) = 0 :=
    Finset.sum_eq_zero fun id _ => by simp [queued, d id (i.left hf id)]
  have := i.finished hf k
  simp only [Config.accepted, hk, if_true] at this
  omega

-- Tasks: a client schedules `outer` on worker 0, which schedules `inner` on worker 1.
inductive Task
  | outer
  | inner
  deriving DecidableEq

def nestedSetup : Setup 2 Task (Option Task) Unit where
  enable_work_steal_ := false
  entry
    | .outer => some .inner
    | .inner => none
  instr
    | some .outer => .scheduleById (some .outer) 0 fun _ => none
    | some .inner => .scheduleById (some .inner) 1 fun _ => none
    | none        => .ret
  client _ := some .outer

def nestedSteps (a : Reply → Action 2 Unit) (k : Nat) : List (Action 2 Unit) :=
  List.replicate k (a ⟨true, 0⟩)

-- The client, worker 0 and worker 1 run their code, and then the destructor does.
def orderlyRun (zero one : Fin 2) : List (Action 2 Unit) :=
  nestedSteps (.client ()) 4 ++ nestedSteps (.worker zero) 7 ++ nestedSteps (.worker one) 5 ++
  List.replicate 4 .destructor ++ nestedSteps (.worker zero) 2 ++ nestedSteps (.worker one) 1 ++
  List.replicate 3 .destructor

theorem scheduleById_contract_orderly :
    ∃ s : Config 2 Task (Option Task) Unit,
      s.results = [.kErrorNone, .kErrorNone] ∧ s.destructor = .finished ∧ Contract s := by
  obtain ⟨s, hr, hs⟩ := (nestedSetup.system.restrict ReachesWorker).exists_reachable (orderlyRun 0 1)
    (p := fun s => s.results = [.kErrorNone, .kErrorNone] ∧ s.destructor = .finished) (by decide)
  simp only [Bool.decide_and, Bool.and_eq_true, decide_eq_true_eq] at hs
  exact ⟨s, hs.left, hs.right, scheduleById_contract hr⟩

-- Once `outer` has read `stop_`, the destructor stops the queues, and worker 1 finds its queue empty
-- and leaves. The push that follows succeeds, but nobody is left to pop the item.
def strandingRun (zero one : Fin 2) : List (Action 2 Unit) :=
  nestedSteps (.client ()) 4 ++ nestedSteps (.worker zero) 5 ++ List.replicate 4 .destructor ++
  nestedSteps (.worker one) 2 ++ nestedSteps (.worker zero) 4 ++ List.replicate 3 .destructor

theorem scheduleById_stranded : ∃ s, nestedSetup.system.Reachable s ∧ ¬ Contract s := by
  obtain ⟨s, hr, hs⟩ := nestedSetup.system.exists_reachable (strandingRun 0 1)
    (p := fun s => s.destructor = .finished ∧ s.results[1]? = some .kErrorNone ∧ s.timesRun 1 = 0)
    (by decide)
  simp only [Bool.decide_and, Bool.and_eq_true, decide_eq_true_eq] at hs
  refine ⟨s, hr, fun h => ?_⟩
  have := h.accepted hs.2.1 hs.1
  omega

end ThreadPool
end AsyncSimple
