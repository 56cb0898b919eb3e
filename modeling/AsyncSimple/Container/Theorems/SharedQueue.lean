import AsyncSimple.Container.SharedQueue

open Transition

namespace AsyncSimple
namespace ThreadsafeQueue

variable {τ θ : Type} {q : ThreadsafeQueue τ} {op : Op τ}

-- How a mutex section changes the queue, by its event.
structure Performed (q₁ : ThreadsafeQueue τ) (ev : Event τ) (q₂ : ThreadsafeQueue τ) : Prop where
  flow      : q₁.queue_ ++ ev.pushes.toList = ev.pops.toList ++ q₂.queue_
  stop      : q₂.stop_ = (q₁.stop_ || ev matches .stopped)
  unchanged : ev = .failed ∨ ev = .waiting → q₂ = q₁
  drained   : ev = .drained → q₁.queue_ = [] ∧ q₁.stop_ = true

theorem tryPopIf_performed (lock : Bool) (predict : Option (τ → Bool)) :
    Performed q (.ofTry (q.tryPopIf lock predict).1) (q.tryPopIf lock predict).2 := by
  simp only [tryPopIf]
  split
  case h_1 hq =>
    split
    case isTrue  => constructor <;> simp [Event.ofTry, Event.pushes, Event.pops, hq]
    case isFalse => constructor <;> simp [Event.ofTry, Event.pushes, Event.pops]
  case h_2 => constructor <;> simp [Event.ofTry, Event.pushes, Event.pops]

theorem performed (q : ThreadsafeQueue τ) (op : Op τ) : Performed q (q.perform op).1 (q.perform op).2 := by
  cases op
  case push item         => constructor <;> simp [perform, push, Event.pushes, Event.pops]
  case tryPush lock item =>
    cases lock <;> constructor <;> simp [perform, tryPush, push, Event.pushes, Event.pops]
  case pop =>
    simp only [perform, pop]
    split
    case h_1 hq => constructor <;> simp [Event.ofPop, Event.pushes, Event.pops, hq]
    case h_2 hq =>
      split
      case isTrue hs  => constructor <;> simp [Event.ofPop, Event.pushes, Event.pops, hq, hs]
      case isFalse hs => constructor <;> simp [Event.pushes, Event.pops]
  case tryPop lock           => exact tryPopIf_performed lock none
  case tryPopIf lock predict => exact tryPopIf_performed lock predict
  case stop                  => constructor <;> simp [perform, stop, Event.pushes, Event.pops]

-- What an operation reports, by the lock that it tries and by the contents that it finds. A `Pop` waits
-- only on a queue that is empty and has not been stopped.
def Reports (q : ThreadsafeQueue τ) : Op τ → Event τ → Prop
  | .push item, ev             => ev = .pushed item
  | .tryPush lock item, ev     => ev = if lock then .pushed item else .failed
  | .pop, ev                   =>
    (∃ item, q.queue_.head? = some item ∧ ev = .popped item) ∨
      (q.queue_ = [] ∧ ev = if q.stop_ then .drained else .waiting)
  | .tryPop lock, ev           =>
    (∃ item, lock = true ∧ q.queue_.head? = some item ∧ ev = .popped item) ∨
      ((lock = false ∨ q.queue_ = []) ∧ ev = .failed)
  | .tryPopIf lock predict, ev =>
    (∃ item, lock = true ∧ q.queue_.head? = some item ∧ predict.all (· item) ∧ ev = .popped item) ∨
      ((lock = false ∨ ∀ item, q.queue_.head? = some item → ¬predict.all (· item)) ∧ ev = .failed)
  | .stop, ev                  => ev = .stopped

theorem tryPopIf_reports (q : ThreadsafeQueue τ) (lock : Bool) (predict : Option (τ → Bool)) :
    Reports q (.tryPopIf lock predict) (.ofTry (q.tryPopIf lock predict).1) := by
  cases lock
  case false => exact .inr ⟨.inl rfl, by simp [tryPopIf, Event.ofTry]⟩
  case true  =>
    cases hq : q.queue_
    case nil => exact .inr ⟨.inr (by simp [hq]), by simp [tryPopIf, hq, Event.ofTry]⟩
    case cons item items =>
      by_cases hp : predict.all (· item)
      case pos => exact .inl ⟨item, rfl, by simp [hq], hp, by simp [tryPopIf, hq, hp, Event.ofTry]⟩
      case neg => exact .inr ⟨.inr (by simp [hq, hp]), by simp [tryPopIf, hq, hp, Event.ofTry]⟩

theorem tryPop_reports (q : ThreadsafeQueue τ) (lock : Bool) :
    Reports q (.tryPop lock) (.ofTry (q.tryPop lock).1) := by
  obtain ⟨item, hl, hh, _, hv⟩ | ⟨hf, hv⟩ := tryPopIf_reports q lock none
  · exact .inl ⟨item, hl, hh, hv⟩
  · refine .inr ⟨hf.imp_right fun h => ?_, hv⟩
    cases hq : q.queue_
    case nil             => rfl
    case cons item items => exact absurd rfl (h item (by simp [hq]))

theorem reports (q : ThreadsafeQueue τ) (op : Op τ) : Reports q op (q.perform op).1 := by
  cases op
  case push item         => rfl
  case tryPush lock item => cases lock <;> rfl
  case pop =>
    cases hq : q.queue_
    case nil             => cases hs : q.stop_ <;> exact .inr ⟨hq, by simp [perform, pop, hq, hs, Event.ofPop]⟩
    case cons item items => exact .inl ⟨item, by simp [hq], by simp [perform, pop, hq, Event.ofPop]⟩
  case tryPop lock           => exact tryPop_reports q lock
  case tryPopIf lock predict => exact tryPopIf_reports q lock predict
  case stop                  => rfl

variable [DecidableEq θ] {s s₁ s₂ : Shared τ θ} {h h₁ h₂ : List (θ × Event τ)} {act : θ × Op τ}

-- Each step performs a mutex section, and its event is added to the history.
theorem history_step (e : history.step (s₁, h₁) act = some (s₂, h₂)) :
    ∃ ev, h₂ = h₁ ++ [(act.1, ev)] ∧ Reports s₁.queue act.2 ev ∧ Performed s₁.queue ev s₂.queue ∧
      ∀ t, s₂.waiting t ↔ if t = act.1 then ev = .waiting else s₁.waiting t := by
  obtain ⟨hs, rfl⟩ := System.record_step.mp e
  refine ⟨_, rfl, reports s₁.queue act.2, ?_⟩
  simp only [shared, Shared.step] at hs
  split at hs <;> cases hs
  refine ⟨performed s₁.queue act.2, fun t => ?_⟩
  by_cases ht : t = act.1
  case pos => cases (s₁.queue.perform act.2).1 <;> simp [ht]
  case neg => simp [ht]

-- A thread is held up only while it waits in `Pop`, and then only in what is not this `Pop`.
theorem history_enabled (s : Shared τ θ) (h : List (θ × Event τ)) (act : θ × Op τ) :
    (∃ x, history.step (s, h) act = some x) ↔ (s.waiting act.1 → act.2.isPop) := by
  cases hw : s.waiting act.1 <;> cases hp : act.2.isPop <;>
    simp [history, System.record, shared, Shared.step, hw, hp]

-- What is pushed is either popped, in the same order, or still in the queue.
structure Fifo (s : Shared τ θ) (h : List (θ × Event τ)) : Prop where
  flow : pops h ++ s.queue.queue_ = pushes h
  stop : s.queue.stop_ = true ↔ ∃ t, (t, .stopped) ∈ h

namespace Fifo

theorem step (f : Fifo s₁ h₁) (e : history.step (s₁, h₁) act = some (s₂, h₂)) : Fifo s₂ h₂ := by
  obtain ⟨ev, rfl, -, p, -⟩ := history_step e
  constructor
  · have hp : pushes (h₁ ++ [(act.1, ev)]) = pushes h₁ ++ ev.pushes.toList := by
      cases hv : ev.pushes <;> simp [pushes, hv]
    have hq : pops (h₁ ++ [(act.1, ev)]) = pops h₁ ++ ev.pops.toList := by
      cases hv : ev.pops <;> simp [pops, hv]
    rw [hp, hq, ← f.flow, List.append_assoc, List.append_assoc, p.flow]
  · rw [p.stop, Bool.or_eq_true, f.stop]
    simp only [List.mem_append, List.mem_singleton, Prod.mk.injEq, exists_or]
    refine or_congr_right ?_
    cases ev <;> simp

theorem reachable (hr : history.Reachable (s, h)) : Fifo s h := by
  refine hr.invariant (S := history) (I := fun x => Fifo x.1 x.2) ?_ fun f e => f.step e
  exact ⟨rfl, by simp [history, System.record, shared, new]⟩

end Fifo

-- The queue is a FIFO. A step of any thread that does not wait reports what its operation, its lock and
-- the contents ask for, and does to the contents what it reports. An operation that fails leaves the
-- queue alone, and `Pop` returns `false` only when the queue has been stopped and everything that has
-- been pushed has been delivered.
theorem fifo_drains (hr : history.Reachable (s, h)) :
    pops h ++ s.queue.queue_ = pushes h ∧
    (∀ act, (∃ x, history.step (s, h) act = some x) ↔ (s.waiting act.1 → act.2.isPop)) ∧
    ∀ act s' h', history.step (s, h) act = some (s', h') → ∃ ev, h' = h ++ [(act.1, ev)] ∧
      Reports s.queue act.2 ev ∧
      (∀ t, s'.waiting t ↔ if t = act.1 then ev = .waiting else s.waiting t) ∧
      s.queue.queue_ ++ ev.pushes.toList = ev.pops.toList ++ s'.queue.queue_ ∧
      (ev = .failed → s'.queue = s.queue) ∧
      (ev = .drained → (∃ t, (t, .stopped) ∈ h) ∧ pops h = pushes h) := by
  have f := Fifo.reachable hr
  refine ⟨f.flow, history_enabled s h, fun act s' h' e => ?_⟩
  obtain ⟨ev, hh, hp, p, hw⟩ := history_step e
  refine ⟨ev, hh, hp, hw, p.flow, fun hv => p.unchanged (.inl hv), fun hv => ?_⟩
  obtain ⟨hq, hs⟩ := p.drained hv
  refine ⟨f.stop.mp hs, ?_⟩
  rw [← f.flow, hq, List.append_nil]

-- A consumer waits, and is given the first item. The queue is stopped, and drained by another consumer.
def drainRun : List (Nat × Op Nat) :=
  [(0, .pop), (1, .push 5), (1, .tryPush false 6), (1, .tryPush true 7), (0, .pop), (2, .tryPopIf true (some (· == 5))),
    (1, .stop), (2, .tryPop true), (2, .pop)]

theorem fifo_drains_stopped :
    ∃ (s : Shared Nat Nat) (h : List (Nat × Event Nat)), h.map (·.2) =
      [.waiting, .pushed 5, .failed, .pushed 7, .popped 5, .failed, .stopped, .popped 7, .drained] ∧
      pops h ++ s.queue.queue_ = pushes h := by
  obtain ⟨⟨s, h⟩, hr, hs⟩ := (history (τ := Nat) (θ := Nat)).exists_reachable drainRun
    (p := fun x => x.2.map (·.2) =
      [.waiting, .pushed 5, .failed, .pushed 7, .popped 5, .failed, .stopped, .popped 7, .drained]) (by decide)
  exact ⟨s, h, decide_eq_true_eq.mp hs, (fifo_drains hr).1⟩

end ThreadsafeQueue
end AsyncSimple
