import AsyncSimple.Util.Theorems.ThreadPool

open Transition

namespace AsyncSimple

namespace ThreadsafeQueue

variable {τ : Type} {q q' : ThreadsafeQueue τ}

-- Only `Stop` sets the flag, and nothing resets it.

theorem stop_pop (h : q.pop = some (item, q')) : q'.stop_ = q.stop_ := by
  simp only [pop] at h
  split at h
  case h_1 => cases h; rfl
  case h_2 => split at h <;> cases h; rfl

theorem stop_tryPopIf (h : q.tryPopIf lock predict = (item, q')) : q'.stop_ = q.stop_ := by
  simp only [tryPopIf] at h
  (repeat' split at h) <;> cases h <;> rfl

-- `Pop` does not wait for an item after `Stop`.
theorem pop_isSome (h : q.stop_) : q.pop.isSome := by
  simp only [pop]
  split
  case h_1 => rfl
  case h_2 => simp [h]

end ThreadsafeQueue

namespace ThreadPool

variable {n : Nat} {φ χ ι : Type} {m : Setup n φ χ ι} {size : χ → Nat}

-- The code of each function, and of each client, comes to its end, whatever `ScheduleById` returns.
def Setup.Ends (m : Setup n φ χ ι) (size : χ → Nat) : Prop :=
  ∀ c, match m.instr c with
    | .ret              => True
    | .skip next        => size next < size c
    | .scheduleById _ _ k => ∀ e, size (k e) < size c

-- A bound on the steps that are left, once `stop_` is set: then `ScheduleById` pushes an item only if it has
-- read `stop_` before.

def rest (size : χ → Nat) (k : ErrorType → χ) : Nat :=
  max (size (k .kErrorNone)) (max (size (k .kErrorPoolHasStop)) (size (k .kErrorPoolItemIsNull)))

theorem le_rest (size : χ → Nat) (k : ErrorType → χ) (e : ErrorType) : size (k e) ≤ rest size k := by
  cases e <;> simp [rest]

theorem rest_lt {k : ErrorType → χ} {b : Nat} (h : ∀ e, size (k e) < b) : rest size k < b :=
  max_lt (h _) (max_lt (h _) (h _))

namespace Setup

-- The work of a function that is to be run, until its worker is back at the beginning of its loop.
def task (m : Setup n φ χ ι) (size : χ → Nat) (fn : φ) : Nat :=
  2 * size (m.entry fn) + 2 * n + 6

def scheduleWork (m : Setup n φ χ ι) (size : χ → Nat) : SchedulePc n φ → Nat
  | .readStop _ _ => 0
  | .tryPush fn i => 2 * n - i + 1 + m.task size fn
  | .push _ fn _  => m.task size fn

def userWork (m : Setup n φ χ ι) (size : χ → Nat) : UserPc n φ χ → Nat
  | .code c        => 2 * size c + 1
  | .schedule k pc => 2 * rest size k + 2 + m.scheduleWork size pc
  | .aborted       => 0

def workerWork (m : Setup n φ χ ι) (size : χ → Nat) : WorkerPc n φ χ → Nat
  | .top      => 2 * n + 3
  | .steal i  => 2 * n - i + 2
  | .pop      => 1
  | .run item => m.task size item.fn - 1
  | .user pc  => m.userWork size pc + 2 * n + 3
  | .left     => 0

def queueWork (m : Setup n φ χ ι) (size : χ → Nat) (q : ThreadsafeQueue (WorkItem φ)) : Nat :=
  (q.queue_.map fun item => m.task size item.fn).sum

def clientWork (m : Setup n φ χ ι) (size : χ → Nat) (pc : Option (UserPc n φ χ)) : Nat :=
  pc.elim 0 (m.userWork size)

end Setup

def DestructorPc.work (n : Nat) : DestructorPc → Nat
  | .start    => 2 * n + 3
  | .stop i   => n - i + n + 2
  | .join i   => n - i + 1
  | .finished => 0

namespace Setup

def workersWork (m : Setup n φ χ ι) (size : χ → Nat) (s : Config n φ χ ι) : Nat :=
  ∑ id, m.workerWork size (s.worker id)

def queuesWork (m : Setup n φ χ ι) (size : χ → Nat) (s : Config n φ χ ι) : Nat :=
  ∑ id, m.queueWork size (s.queues_ id)

def clientsWork [Fintype ι] (m : Setup n φ χ ι) (size : χ → Nat) (s : Config n φ χ ι) : Nat :=
  ∑ i, m.clientWork size (s.client i)

def work [Fintype ι] (m : Setup n φ χ ι) (size : χ → Nat) (s : Config n φ χ ι) : Nat :=
  m.workersWork size s + m.queuesWork size s + m.clientsWork size s + s.destructor.work n

end Setup

theorem queueWork_push (q : ThreadsafeQueue (WorkItem φ)) (item : WorkItem φ) :
    m.queueWork size (q.push item) = m.queueWork size q + m.task size item.fn := by
  simp [Setup.queueWork, ThreadsafeQueue.push]

theorem queueWork_cons {q₁ q₂ : ThreadsafeQueue (WorkItem φ)} {item : WorkItem φ} (h : q₁.queue_ = item :: q₂.queue_) :
    m.queueWork size q₁ = m.queueWork size q₂ + m.task size item.fn := by
  simp [Setup.queueWork, h, Nat.add_comm]

variable {s s₁ s₂ : Config n φ χ ι}

-- What a step of user code leaves as it is.
structure Kept (s₁ s₂ : Config n φ χ ι) : Prop where
  worker     : s₂.worker = s₁.worker
  client     : s₂.client = s₁.client
  destructor : s₂.destructor = s₁.destructor
  stop_      : s₂.stop_ = s₁.stop_
  queue      : ∀ id, (s₂.queues_ id).stop_ = (s₁.queues_ id).stop_

theorem UserEffect.kept {t : Option (Fin n)} (e : UserEffect s₁ t s₂) : Kept s₁ s₂ := by
  cases e
  case skip   => exact ⟨rfl, rfl, rfl, rfl, fun _ => rfl⟩
  case refuse => exact ⟨rfl, rfl, rfl, rfl, fun _ => rfl⟩
  case push item id _ =>
    refine ⟨rfl, rfl, rfl, rfl, fun id' => ?_⟩
    by_cases h : id' = id
    · subst h
      simp [Config.result, Config.setQueue, ThreadsafeQueue.push]
    · simp [Config.result, Config.setQueue, Function.update_of_ne h]

theorem queuesWork_setQueue (m : Setup n φ χ ι) (size : χ → Nat) (s : Config n φ χ ι) (id : Fin n)
    (q : ThreadsafeQueue (WorkItem φ)) :
    m.queuesWork size (s.setQueue id q) + m.queueWork size (s.queues_ id) = m.queuesWork size s + m.queueWork size q :=
  Count.sum_update (m.queueWork size) s.queues_ id q

theorem workersWork_setWorker (m : Setup n φ χ ι) (size : χ → Nat) (s : Config n φ χ ι) (id : Fin n)
    (pc : WorkerPc n φ χ) :
    m.workersWork size (s.setWorker id pc) + m.workerWork size (s.worker id) = m.workersWork size s + m.workerWork size pc :=
  Count.sum_update (m.workerWork size) s.worker id pc

theorem clientsWork_setClient [Fintype ι] [DecidableEq ι] (m : Setup n φ χ ι) (size : χ → Nat) (s : Config n φ χ ι)
    (i : ι) (pc : Option (UserPc n φ χ)) :
    m.clientsWork size (s.setClient i pc) + m.clientWork size (s.client i) = m.clientsWork size s + m.clientWork size pc :=
  Count.sum_update (m.clientWork size) s.client i pc

theorem stop_setQueue {id : Fin n} {q : ThreadsafeQueue (WorkItem φ)} (h : q.stop_ = (s.queues_ id).stop_)
    (id' : Fin n) : ((s.setQueue id q).queues_ id').stop_ = (s.queues_ id').stop_ := by
  by_cases hid : id' = id
  · subst hid
    simp [Config.setQueue, h]
  · simp [Config.setQueue, Function.update_of_ne hid]

theorem stepDestructor_work [Fintype ι] (hs : s₁.stop_) (h : Setup.stepDestructor s₁ = some s₂) :
    m.work size s₂ < m.work size s₁ ∧ s₂.stop_ := by
  have hw (d : DestructorPc) (hd : d.work n < s₁.destructor.work n) (stop_ : Bool) :
      m.work size { s₁ with destructor := d, stop_ } < m.work size s₁ :=
    Nat.add_lt_add_left hd _
  cases hd : s₁.destructor <;> simp only [Setup.stepDestructor, hd] at h
  case start =>
    cases h
    refine ⟨hw _ ?_ true, rfl⟩
    simp only [hd, DestructorPc.work]
    omega
  case stop i =>
    split at h <;> cases h
    case isTrue hi =>
      refine ⟨?_, hs⟩
      have hq : m.queuesWork size (s₁.setQueue ⟨i, hi⟩ (s₁.queues_ ⟨i, hi⟩).stop) = m.queuesWork size s₁ := by
        have := queuesWork_setQueue m size s₁ ⟨i, hi⟩ (s₁.queues_ ⟨i, hi⟩).stop
        have hsame : m.queueWork size (s₁.queues_ ⟨i, hi⟩).stop = m.queueWork size (s₁.queues_ ⟨i, hi⟩) := rfl
        omega
      have hlt : (DestructorPc.stop (i + 1)).work n < (DestructorPc.stop i).work n := by
        simp only [DestructorPc.work]
        omega
      simp only [Setup.work, hd]
      exact Nat.add_lt_add_of_le_of_lt (Nat.add_le_add_right (Nat.add_le_add_left hq.le _) _) hlt
    case isFalse =>
      refine ⟨hw _ ?_ _, hs⟩
      simp only [hd, DestructorPc.work]
      omega
  case join i =>
    split at h
    case isTrue =>
      split at h <;> cases h
      refine ⟨hw _ ?_ _, hs⟩
      simp only [hd, DestructorPc.work]
      omega
    case isFalse =>
      cases h
      exact ⟨hw _ (by simp [hd, DestructorPc.work]) _, hs⟩
  case finished => contradiction

variable [NeZero n]

theorem stepSchedule_work {pc : SchedulePc n φ} (hs : s₁.stop_) (h : m.stepSchedule s₁ k r pc = (s₂, pc₂)) :
    m.userWork size pc₂ + m.queuesWork size s₂ < m.userWork size (.schedule k pc) + m.queuesWork size s₁ := by
  have hpush (id : Fin n) (item : WorkItem φ) (e : ErrorType) : m.queuesWork size
      ((s₁.setQueue id ((s₁.queues_ id).push item)).result e) = m.queuesWork size s₁ + m.task size item.fn := by
    have := queuesWork_setQueue m size s₁ id ((s₁.queues_ id).push item)
    rw [queueWork_push] at this
    have hr : m.queuesWork size ((s₁.setQueue id ((s₁.queues_ id).push item)).result e) =
      m.queuesWork size (s₁.setQueue id ((s₁.queues_ id).push item)) := rfl
    omega
  cases pc
  case readStop fn id =>
    simp only [Setup.stepSchedule, hs, if_true] at h
    cases h
    have := le_rest size k .kErrorPoolHasStop
    have hq : m.queuesWork size (s₁.result .kErrorPoolHasStop) = m.queuesWork size s₁ := rfl
    simp only [Setup.userWork, Setup.scheduleWork, hq]
    omega
  case tryPush fn i =>
    simp only [Setup.stepSchedule, ThreadsafeQueue.tryPush] at h
    by_cases hi : i < n * 2 <;> cases hl : r.lock <;>
      simp only [hi, hl, if_true, if_false, Bool.false_eq_true] at h <;> cases h
    case pos.true =>
      have := le_rest size k .kErrorNone
      simp only [Setup.userWork, Setup.scheduleWork, hpush]
      omega
    all_goals
      simp only [Setup.userWork, Setup.scheduleWork]
      omega
  case push =>
    cases h
    have := le_rest size k .kErrorNone
    simp only [Setup.userWork, Setup.scheduleWork, hpush]
    omega

theorem stepUser_work (he : m.Ends size) (hs : s₁.stop_) (h : m.stepUser s₁ r pc₁ = some (s₂, pc₂)) :
    m.clientWork size pc₂ + m.queuesWork size s₂ < m.userWork size pc₁ + m.queuesWork size s₁ := by
  cases pc₁
  case aborted => contradiction
  case schedule k pc =>
    simp only [Setup.stepUser, Option.some.injEq, Prod.mk.injEq] at h
    obtain ⟨rfl, rfl⟩ := h
    exact stepSchedule_work hs rfl
  case code c =>
    have hc := he c
    cases hi : m.instr c <;> simp only [Setup.stepUser, hi] at h hc
    case ret  =>
      cases h
      simp only [Setup.clientWork, Option.elim_none, Setup.userWork]
      omega
    case skip =>
      cases h
      simp only [Setup.clientWork, Option.elim_some, Setup.userWork]
      omega
    case scheduleById fn id k =>
      have := rest_lt hc
      cases fn <;> cases h
      case none =>
        have := hc .kErrorPoolItemIsNull
        have hq : m.queuesWork size (s₁.result .kErrorPoolItemIsNull) = m.queuesWork size s₁ := rfl
        simp only [Setup.clientWork, Option.elim_some, Setup.userWork, hq]
        omega
      case some =>
        simp only [Setup.clientWork, Option.elim_some, Setup.userWork, Setup.scheduleWork]
        omega

-- A worker takes a step, which its queues pay for when it takes an item.
theorem stepWorker_work {id : Fin n} (he : m.Ends size) (hs : s₁.stop_) (h : m.stepWorker s₁ id r = some s₂) :
    m.workersWork size s₂ + m.queuesWork size s₂ < m.workersWork size s₁ + m.queuesWork size s₁ ∧
      s₂.client = s₁.client ∧ s₂.destructor = s₁.destructor ∧ s₂.stop_ = s₁.stop_ := by
  have hgoto {pc : WorkerPc n φ χ} (hw : m.workerWork size pc < m.workerWork size (s₁.worker id)) :
      m.workersWork size (s₁.setWorker id pc) + m.queuesWork size (s₁.setWorker id pc) <
        m.workersWork size s₁ + m.queuesWork size s₁ := by
    have := workersWork_setWorker m size s₁ id pc
    have hq : m.queuesWork size (s₁.setWorker id pc) = m.queuesWork size s₁ := rfl
    omega
  have htake {victim : Fin n} {item : WorkItem φ} {q : ThreadsafeQueue (WorkItem φ)}
      (hq : (s₁.queues_ victim).queue_ = item :: q.queue_) (hw : 0 < m.workerWork size (s₁.worker id)) :
      m.workersWork size ((s₁.setQueue victim q).setWorker id (.run item)) +
        m.queuesWork size ((s₁.setQueue victim q).setWorker id (.run item)) <
          m.workersWork size s₁ + m.queuesWork size s₁ := by
    have h₁ := workersWork_setWorker m size (s₁.setQueue victim q) id (.run item)
    have h₂ := queuesWork_setQueue m size s₁ victim q
    rw [queueWork_cons hq] at h₂
    have h₃ : m.queuesWork size ((s₁.setQueue victim q).setWorker id (.run item)) =
      m.queuesWork size (s₁.setQueue victim q) := rfl
    have h₄ : m.workersWork size (s₁.setQueue victim q) = m.workersWork size s₁ := rfl
    simp only [Setup.workerWork, Config.worker_setQueue] at h₁ hw
    have h₅ : m.task size item.fn = 2 * size (m.entry item.fn) + 2 * n + 6 := rfl
    omega
  cases hp : s₁.worker id <;> simp only [Setup.stepWorker, hp] at h
  case top =>
    cases h
    refine ⟨hgoto ?_, rfl, rfl, rfl⟩
    rw [hp]
    split <;> simp only [Setup.workerWork] <;> omega
  case steal i =>
    split at h
    case isTrue hi =>
      split at h <;> cases h
      case h_1 hq =>
        have hw : 0 < m.workerWork size (s₁.worker id) := by rw [hp]; simp [Setup.workerWork]
        exact ⟨htake (ThreadsafeQueue.tryPopIf_some hq).left hw, rfl, rfl, rfl⟩
      case h_2    =>
        refine ⟨hgoto ?_, rfl, rfl, rfl⟩
        simp only [hp, Setup.workerWork]
        omega
    case isFalse =>
      cases h
      refine ⟨hgoto ?_, rfl, rfl, rfl⟩
      simp only [hp, Setup.workerWork]
      omega
  case pop =>
    split at h <;> cases h
    case h_1 hq => exact ⟨htake (ThreadsafeQueue.pop_some hq) (by rw [hp]; simp [Setup.workerWork]), rfl, rfl, rfl⟩
    case h_2    => exact ⟨hgoto (by simp [hp, Setup.workerWork]), rfl, rfl, rfl⟩
  case run item =>
    cases h
    refine ⟨hgoto ?_, rfl, rfl, rfl⟩
    simp only [hp, Setup.workerWork, Setup.userWork, Setup.task]
    omega
  case user pc₁ =>
    have hmove {s : Config n φ χ ι} {pc₂ : Option (UserPc n φ χ)} {pc : WorkerPc n φ χ}
        (hu : m.stepUser s₁ r pc₁ = some (s, pc₂)) (hw : m.workerWork size pc = m.clientWork size pc₂ + 2 * n + 3) :
        m.workersWork size (s.setWorker id pc) + m.queuesWork size (s.setWorker id pc) <
          m.workersWork size s₁ + m.queuesWork size s₁ ∧
        (s.setWorker id pc).client = s₁.client ∧ (s.setWorker id pc).destructor = s₁.destructor ∧
        (s.setWorker id pc).stop_ = s₁.stop_ := by
      have hk := (stepUser_effect hu).kept
      have h₁ := stepUser_work he hs hu
      have h₂ := workersWork_setWorker m size s id pc
      have h₃ : m.queuesWork size (s.setWorker id pc) = m.queuesWork size s := rfl
      have h₄ : m.workersWork size s = m.workersWork size s₁ := by rw [Setup.workersWork, hk.worker]; rfl
      rw [hk.worker, hp, hw, h₄] at h₂
      simp only [Setup.workerWork] at h₂
      exact ⟨by omega, hk.client, hk.destructor, hk.stop_⟩
    split at h <;> cases h
    case h_1 hu => exact hmove hu rfl
    case h_2 hu => exact hmove hu (by simp [Setup.workerWork, Setup.clientWork])
  case left => contradiction

-- The queues below this number have been stopped.
def DestructorPc.stopped (n : Nat) : DestructorPc → Nat
  | .start  => 0
  | .stop i => i
  | _       => n

def Stopped (s : Config n φ χ ι) : Prop :=
  ∀ id : Fin n, id < s.destructor.stopped n → (s.queues_ id).stop_

theorem stepWorker_stop {id : Fin n} (h : m.stepWorker s₁ id r = some s₂) (id' : Fin n) :
    (s₂.queues_ id').stop_ = (s₁.queues_ id').stop_ := by
  cases hp : s₁.worker id <;> simp only [Setup.stepWorker, hp] at h
  case top => cases h; rfl
  case steal i =>
    split at h
    case isTrue =>
      split at h <;> cases h
      case h_1 hq => exact stop_setQueue (ThreadsafeQueue.stop_tryPopIf hq) id'
      case h_2    => rfl
    case isFalse => cases h; rfl
  case pop =>
    split at h <;> cases h
    case h_1 hq => exact stop_setQueue (ThreadsafeQueue.stop_pop hq) id'
    case h_2    => rfl
  case run => cases h; rfl
  case user =>
    split at h <;> cases h
    case h_1 hu => exact (stepUser_effect hu).kept.queue id'
    case h_2 hu => exact (stepUser_effect hu).kept.queue id'
  case left => contradiction

-- The only worker that cannot take a step, once its queue is stopped, has left or has aborted.
theorem stepWorker_none {id : Fin n} (hq : (s.queues_ id).stop_) (h : ∀ r, m.stepWorker s id r = none) :
    s.worker id = .left ∨ s.worker id = .user .aborted := by
  have h := h ⟨true, 0⟩
  cases hp : s.worker id <;> simp only [Setup.stepWorker, hp] at h
  case steal =>
    split at h
    case isTrue  => split at h <;> contradiction
    case isFalse => contradiction
  case pop =>
    have := ThreadsafeQueue.pop_isSome hq
    split at h <;> simp_all
  case user pc =>
    cases pc
    case code c =>
      cases hi : m.instr c <;> simp [Setup.stepUser, hi] at h
      case scheduleById fn _ _ => cases fn <;> simp at h
    case schedule => simp [Setup.stepUser] at h
    case aborted  => exact .inr rfl
  case left => exact .inl rfl
  all_goals contradiction

variable [DecidableEq ι]

theorem Stopped.step {a : Action n ι} (hs : Stopped s₁) (h : m.system.step s₁ a = some s₂) : Stopped s₂ := by
  cases a
  case worker id r =>
    intro id' hid
    rw [stepWorker_stop h]
    exact hs id' ((stepWorker_effect h).destructor ▸ hid)
  case client i r =>
    simp only [Setup.system, Setup.stepClient] at h
    split at h <;> try contradiction
    case h_1 =>
    obtain ⟨⟨s, pc⟩, hu, rfl⟩ := Option.map_eq_some_iff.mp h
    have hk := (stepUser_effect hu).kept
    intro id hid
    exact (hk.queue id).trans (hs id (hk.destructor ▸ hid))
  case destructor =>
    cases hd : s₁.destructor <;> simp only [Setup.system, Setup.stepDestructor, hd] at h
    case start => cases h; exact fun _ hid => absurd hid (Nat.not_lt_zero _)
    case stop i =>
      split at h <;> cases h
      case isTrue hi =>
        intro id hid
        by_cases heq : id = ⟨i, hi⟩
        · subst heq
          simp [Config.setQueue, ThreadsafeQueue.stop]
        · have hne : (id : Nat) ≠ i := fun h => heq (Fin.ext h)
          have hlt : (id : Nat) < i + 1 := hid
          simp only [Config.setQueue, Function.update_of_ne heq]
          exact hs id (by simp only [hd, DestructorPc.stopped]; omega)
      case isFalse hi =>
        intro id _
        exact hs id (by simp only [hd, DestructorPc.stopped]; omega)
    case join i =>
      have hall (id : Fin n) : (s₁.queues_ id).stop_ := hs id (by simp [hd, DestructorPc.stopped])
      split at h
      case isTrue =>
        split at h <;> cases h
        exact fun id _ => hall id
      case isFalse =>
        cases h
        exact fun id _ => hall id
    case finished => contradiction

variable [Fintype ι]

theorem stepClient_work {i : ι} (he : m.Ends size) (hs : s₁.stop_) (h : m.stepClient s₁ i r = some s₂) :
    m.work size s₂ < m.work size s₁ ∧ s₂.stop_ := by
  simp only [Setup.stepClient] at h
  split at h <;> try contradiction
  case h_1 pc hc =>
  obtain ⟨⟨s, pc₂⟩, hu, rfl⟩ := Option.map_eq_some_iff.mp h
  have hk := (stepUser_effect hu).kept
  have h₁ := stepUser_work he hs hu
  have h₂ := clientsWork_setClient m size s i pc₂
  have h₃ : m.clientsWork size s = m.clientsWork size s₁ := by rw [Setup.clientsWork, hk.client]; rfl
  have h₄ : m.workersWork size (s.setClient i pc₂) = m.workersWork size s₁ := by
    rw [show m.workersWork size (s.setClient i pc₂) = m.workersWork size s from rfl, Setup.workersWork, hk.worker]
    rfl
  have h₅ : m.queuesWork size (s.setClient i pc₂) = m.queuesWork size s := rfl
  have h₆ : (s.setClient i pc₂).destructor = s₁.destructor := hk.destructor
  have h₇ : m.clientWork size (some pc) = m.userWork size pc := rfl
  rw [hk.client, hc, h₇] at h₂
  refine ⟨?_, hk.stop_.trans hs⟩
  simp only [Setup.work, h₄, h₅, h₆]
  omega

theorem step_work {a : Action n ι} (he : m.Ends size) (hs : s₁.stop_) (h : m.system.step s₁ a = some s₂) :
    m.work size s₂ < m.work size s₁ ∧ s₂.stop_ := by
  cases a
  case client     => exact stepClient_work he hs h
  case destructor => exact stepDestructor_work hs h
  case worker     =>
    obtain ⟨hw, hc, hd, hstop⟩ := stepWorker_work he hs h
    have hcw : m.clientsWork size s₂ = m.clientsWork size s₁ := by rw [Setup.clientsWork, hc]; rfl
    refine ⟨?_, hstop.trans hs⟩
    simp only [Setup.work, hcw, hd]
    omega

-- Once the destructor has begun, the pool comes to rest, whatever the clients and the functions that are
-- still to run schedule. Then the destructor has finished, unless an assertion has failed in a worker.
theorem shutdown (he : m.Ends size) (h : m.system.Reachable s) (hs : s.stop_) :
    (m.system.startingAt s).Terminates ∧
      ∀ s', (m.system.startingAt s).Reachable s' → m.system.Quiescent s' →
        s'.destructor = .finished ∨ ∃ id, s'.worker id = .user .aborted := by
  have hr {s' : Config n φ χ ι} (h' : (m.system.startingAt s).Reachable s') : s'.stop_ ∧ Stopped s' := by
    have hi : Stopped s := h.invariant (fun _ hid => absurd hid (Nat.not_lt_zero _)) .step
    refine h'.invariant (I := fun s => s.stop_ ∧ Stopped s) ⟨hs, hi⟩ ?_
    intro s₁ a s₂ i e
    exact ⟨(step_work he i.1 e).right, Stopped.step (m := m) i.2 e⟩
  refine ⟨System.terminates Nat.lt_wfRel.wf fun h' e => (step_work he (hr h').left e).left, fun s' h' hq => ?_⟩
  have hd := hq .destructor
  cases hp : s'.destructor <;> simp only [Setup.system, Setup.stepDestructor, hp] at hd
  case start => contradiction
  case stop  => split at hd <;> contradiction
  case join i =>
    split at hd <;> try contradiction
    case isTrue hi =>
    have hall : (s'.queues_ ⟨i, hi⟩).stop_ := (hr h').right _ (by simpa [hp, DestructorPc.stopped])
    cases stepWorker_none hall fun r => hq (.worker ⟨i, hi⟩ r)
    case inl hl => simp [hl] at hd
    case inr ha => exact .inr ⟨_, ha⟩
  case finished => exact .inl rfl

-- The clients and the functions of `nestedSetup` schedule one function each.
theorem nestedSetup_ends : nestedSetup.Ends fun c => match c with | none => 0 | _ => 1 := by
  intro c
  cases c
  case none => exact trivial
  case some t => cases t <;> exact fun _ => Nat.one_pos

-- The destructor begins while `outer` is in its queue.
theorem shutdown_nested :
    let s := nestedSetup.system.after (nestedSteps (.client ()) 4 ++ [.destructor])
    (s.queues_ 0).queue_.length = 1 ∧ (nestedSetup.system.startingAt s).Terminates ∧
      ∀ s', (nestedSetup.system.startingAt s).Reachable s' → nestedSetup.system.Quiescent s' →
        s'.destructor = .finished ∨ ∃ id, s'.worker id = .user .aborted :=
  ⟨by decide, shutdown nestedSetup_ends (System.reachable_after _ _) (by decide)⟩

end ThreadPool
end AsyncSimple
