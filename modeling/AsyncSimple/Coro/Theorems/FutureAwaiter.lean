import AsyncSimple.Coro.FutureAwaiter
import AsyncSimple.Sync.Theorems.Rendezvous

open Transition

namespace AsyncSimple

namespace Rendezvous

variable {ε α κ ξ γ : Type} {m : Setup ε α κ ξ γ Unit} {s s₁ s₂ : Config ε α κ ξ γ Unit} {a : Action ε Unit}

-- A result that has been published stays, and is the one of the call of `SetResult`.

theorem hasResult_step (h : m.system.step s₁ a = some s₂) (hr : s₁.fs.hasResult) : s₂.fs.hasResult := by
  cases a
  case runTask =>
    simp only [Setup.system, Setup.runTask] at h
    split at h <;> cases h
    exact hr
  case step c r =>
    obtain ⟨hs, _⟩ | ⟨_, hs, _⟩ | ⟨_, hs, _⟩ := stepCaller_state h
    · rwa [FutureState.hasResult, hs]
    · simp [FutureState.hasResult, hs] at hr
    · simp [FutureState.hasResult, hs]

-- The caller that moves the state to `kDone` is past writing its slot.
theorem Delivery.late (d : Delivery m c s) : s.pc c ≠ .check ∧ s.pc c ≠ .write := by
  cases d
  case delivered pc _ _ _ _ => obtain pc | ⟨_, pc⟩ := pc <;> simp [pc]
  case failed pc _ _ _ _    => obtain pc | ⟨_, pc⟩ := pc <;> simp [pc]
  all_goals simp [*]

theorem Inv.late_of_hasResult (i : Inv m s) (hr : s.fs.hasResult) :
    s.pc (.result ()) ≠ .check ∧ s.pc (.result ()) ≠ .write := by
  cases i.phase
  case start hs _ _    => simp [FutureState.hasResult, hs] at hr
  case half c hs hp _ _ =>
    cases c
    case result       => simp [FutureState.hasResult, hs, Caller.opposite] at hr
    case continuation => exact (show s.pc (.result ()) = .returned from hp) ▸ ⟨by simp, by simp⟩
  case done c _ _ hp d =>
    cases c
    case result       => exact d.late
    case continuation => exact (show s.pc (.result ()) = .returned from hp) ▸ ⟨by simp, by simp⟩

theorem Inv.try_value_ (i : Inv m s) (hr : s.fs.hasResult) : s.fs.try_value_ = m.value () :=
  have h := i.late_of_hasResult hr
  i.written (.result ()) h.left h.right

-- The continuation has not been called, or it has been called once, when there is a result.
theorem Inv.invoked_cases (i : Inv m s) :
    s.invoked = [] ∨ (s.invoked.length = 1 ∧ s.fs.hasResult ∧ s.pc .continuation ≠ .check) := by
  cases i.phase
  case start idle => exact .inl idle.invoked
  case half idle  => exact .inl idle.invoked
  case done c hs _ hp d =>
    have hc : s.pc .continuation ≠ .check := by
      cases c
      case result       => exact (show s.pc .continuation = .returned from hp) ▸ by simp
      case continuation => exact d.late.left
    have hr : s.fs.hasResult := by simp [FutureState.hasResult, hs]
    cases d
    case delivered invoked _ => exact .inr ⟨by simp [invoked], hr, hc⟩
    all_goals exact .inl ‹s.invoked = []›

theorem stepSchedule_invoked (p : SchedulePc) : (Setup.stepSchedule s c r p).invoked = s.invoked ∨
    ∃ call, (Setup.stepSchedule s c r p).invoked = s.invoked ++ [call] := by
  cases p <;> simp only [Setup.stepSchedule]
  case inline | fallback => exact .inr ⟨_, rfl⟩
  all_goals (repeat' split) <;> exact .inl rfl

theorem step_invoked (h : m.system.step s₁ a = some s₂) :
    s₂.invoked = s₁.invoked ∨ ∃ call, s₂.invoked = s₁.invoked ++ [call] := by
  cases a
  case runTask =>
    simp only [Setup.system, Setup.runTask] at h
    split at h <;> cases h
    exact .inr ⟨_, rfl⟩
  case step c r =>
    simp only [Setup.system] at h
    cases hp : s₁.pc c <;> simp only [Setup.stepCaller, hp] at h
    case schedule p => cases h; exact stepSchedule_invoked p
    all_goals
      (repeat' split at h) <;> cases h <;> first | exact .inl rfl | (cases c <;> exact .inl rfl)

-- After a call of `SetContinuation` that has thrown before it has called the continuation, nothing is left
-- to be done.
theorem Inv.stuck (i : Inv m s) (hx : s.pc .continuation = .threw x) (hi : s.invoked = []) :
    m.system.step s a = none := by
  cases i.phase
  case start he _        => cases hx ▸ he .continuation
  case half c _ hp hd _  =>
    cases c
    case result       => exact absurd (hx.symm.trans (show s.pc .continuation = .returned from hp)) (by simp)
    case continuation => obtain ⟨⟨⟩⟩ | ⟨⟨⟩⟩ := hx ▸ hd
  case done c _ _ hp d   =>
    cases c
    case result       => exact absurd (hx.symm.trans (show s.pc .continuation = .returned from hp)) (by simp)
    case continuation =>
      have hr : s.pc (.result ()) = .returned := hp
      cases d
      case failed tasks =>
        cases a
        case runTask => simp [Setup.system, Setup.runTask, tasks]
        case step c _ => cases c <;> simp [Setup.system, Setup.stepCaller, hr, hx]
      case delivered invoked _ => simp [hi] at invoked
      all_goals simp_all

-- A call that runs the continuation does not throw when the continuation does not.
theorem stepCaller_invoked {r : Reply ε} (h : m.stepCaller s₁ c r = some s₂) (hi : s₂.invoked ≠ s₁.invoked) :
    (∃ p, s₁.pc c = .schedule p) ∧ (r.body = none → s₂.pc c = .returned) := by
  cases hp : s₁.pc c <;> simp only [Setup.stepCaller, hp] at h
  case schedule p =>
    refine ⟨⟨p, rfl⟩, fun hb => ?_⟩
    cases h
    cases p <;> simp only [Setup.stepSchedule] at hi ⊢
    case inline | fallback => simp [Setup.afterInvoke, hb]
    all_goals
      (repeat' split at hi) <;> exact absurd rfl hi
  all_goals
    (repeat' split at h) <;> cases h <;> first | exact absurd rfl hi | (cases c <;> exact absurd rfl hi)

def Action.body : Action ε Unit → Option (Exception ε)
  | .step _ r => r.body
  | .runTask  => none

-- By the time at which the continuation is called, `SetContinuation` has returned, or it does so now.
theorem Inv.returned_of_invoked (i : Inv m s₁) (h : m.system.step s₁ a = some s₂) (hb : a.body = none)
    (hi : s₂.invoked ≠ s₁.invoked) : s₂.pc .continuation = .returned := by
  cases a
  case step c r =>
    obtain ⟨⟨p, hp⟩, hr⟩ := stepCaller_invoked h hi
    cases c
    case continuation => exact hr hb
    case result       => exact (stepCaller_pc_peer h).trans (i.phase.schedule hp).right
  case runTask =>
    simp only [Setup.system, Setup.runTask] at h
    split at h <;> cases h
    case isFalse ht =>
      cases i.phase
      case start idle => exact absurd idle.tasks ht
      case half idle  => exact absurd idle.tasks ht
      case done c _ _ hp d =>
        cases d
        case pending pc _ _ _ _ =>
          cases c
          case result       => exact hp
          case continuation => exact pc
        all_goals contradiction

-- Only the caller of `SetContinuation` moves its call on, until it has returned.
theorem pc_continuation_step (h : m.system.step s₁ a = some s₂) :
    s₂.pc .continuation = s₁.pc .continuation ∨ ((∃ r, a = .step .continuation r) ∧ s₁.pc .continuation ≠ .returned) := by
  cases a
  case runTask =>
    simp only [Setup.system, Setup.runTask] at h
    split at h <;> cases h
    exact .inl rfl
  case step c r =>
    cases c
    case result       => exact .inl (stepCaller_pc_peer h)
    case continuation =>
      refine .inr ⟨⟨r, rfl⟩, fun hp => ?_⟩
      simp [Setup.system, Setup.stepCaller, hp] at h

end Rendezvous

namespace FutureAwaiter

variable {ε α ξ γ : Type} {m : Setup ε α ξ γ} {s s₁ s₂ : Config ε α ξ γ}

-- Where the coroutine is: when it goes on, there is a result, and if it has waited for it, then the
-- continuation has been called, unless `SetContinuation` has thrown before.
def At (m : Setup ε α ξ γ) (s : Config ε α ξ γ) : Pc ε α → Prop
  | .awaitReady  => s.waits = false
  | .suspended   => s.waits ∧ s.resumed = 0 ∧ ∀ x, s.shared.pc .continuation ≠ .threw x
  | .awaitResume => m.hasResult s ∧ (s.waits → s.resumed ≠ 0)
  | .returned r  => r = m.result.getValue ∧ (s.waits → s.resumed ≠ 0)
  | .threw x     => s.waits ∧ s.resumed = 0 ∧ s.shared.pc .continuation = .threw x

structure Inv (m : Setup ε α ξ γ) (s : Config ε α ξ γ) : Prop where
  shared  : Rendezvous.Inv m.shared s.shared
  resumed : s.resumed = s.shared.invoked.length
  waits   : s.waits = false → s.shared.pc .continuation = .check
  called  : s.resumed ≠ 0 → s.shared.pc .continuation = .returned
  pc      : At m s s.pc

namespace Inv

theorem init : Inv m m.system.init where
  shared    := .init
  resumed   := rfl
  waits _   := rfl
  called h  := absurd rfl h
  pc        := rfl

theorem not_resumed (i : Inv m s) (hw : s.waits = false) : s.resumed = 0 := by
  by_contra hr
  simpa [i.waits hw] using i.called hr

theorem getTry_eq (i : Inv m s) (hr : m.hasResult s) : m.getTry s = .ok m.result := by
  rw [Setup.getTry, if_pos hr, Setup.result]
  cases hl : m.local_
  case some => rfl
  case none =>
    simp only [Setup.hasResult, hl, Option.isSome_none, Bool.false_or] at hr
    rw [Option.elim_none, Option.elim_none, i.shared.try_value_ hr]

theorem step_coroutine (i : Inv m s₁) (h : m.coroutine s₁ = some s₂) : Inv m s₂ := by
  have hp := i.pc
  cases hs : s₁.pc <;> simp only [Setup.coroutine, hs] at h
  case awaitReady  =>
    rw [hs] at hp
    split at h <;> cases h
    case isTrue hr =>
      exact ⟨i.shared, i.resumed, i.waits, i.called, hr, fun hw => by simp [show s₁.waits = false from hp] at hw⟩
    case isFalse   =>
      refine ⟨i.shared, i.resumed, fun hw => by contradiction, i.called, rfl, i.not_resumed hp, fun x hx => ?_⟩
      have : s₁.shared.pc .continuation = .threw x := hx
      simp [i.waits hp] at this
  case awaitResume =>
    rw [hs] at hp
    cases h
    refine ⟨i.shared, i.resumed, i.waits, i.called, ?_, hp.right⟩
    rw [i.getTry_eq hp.left]
    rfl
  all_goals contradiction

theorem pc_continuation {a : Rendezvous.Action ε Unit} {shared : Rendezvous.Config ε α Unit ξ γ Unit}
    (he : Setup.enabled s₁ a) (hw : s₁.waits = false)
    (h : m.shared.system.step s₁.shared a = some shared) : shared.pc .continuation = s₁.shared.pc .continuation := by
  obtain h | ⟨⟨r, rfl⟩, -⟩ := Rendezvous.pc_continuation_step h
  · exact h
  · simp [Setup.enabled, hw] at he

theorem body_of_enabled {a : Rendezvous.Action ε Unit} (he : Setup.enabled s a) : a.body = none := by
  cases a
  case runTask  => rfl
  case step c r => cases c <;> simp_all [Setup.enabled, Rendezvous.Action.body]

-- The coroutine is only resumed while it is suspended: by the continuation, or by an exception.
theorem shared_cases {a : Rendezvous.Action ε Unit} (i : Inv m s₁) (h : m.system.step s₁ (.shared a) = some s₂) :
    ∃ shared, m.shared.system.step s₁.shared a = some shared ∧ Setup.enabled s₁ a ∧
      ((s₂ = { s₁ with shared } ∧ shared.invoked = s₁.shared.invoked ∧ ∀ x, shared.pc .continuation ≠ .threw x) ∨
        (s₂ = { s₁ with shared }.resume ∧ s₁.pc = .suspended ∧ shared.invoked.length = 1 ∧ shared.fs.hasResult ∧
          shared.pc .continuation = .returned) ∨
        (∃ x, s₂ = { s₁ with shared, pc := .threw x } ∧ s₁.pc = .suspended ∧ shared.invoked = s₁.shared.invoked ∧
          shared.pc .continuation = .threw x)) := by
  simp only [Setup.system, Setup.step] at h
  split at h <;> try contradiction
  case isTrue he =>
  obtain ⟨shared, hs, rfl⟩ := Option.map_eq_some_iff.mp h
  refine ⟨shared, hs, he, ?_⟩
  -- Nothing happens any more once `SetContinuation` has thrown.
  have suspended (hw : s₁.waits) (hz : s₁.resumed = 0) : s₁.pc = .suspended := by
    have hp := i.pc
    cases hpc : s₁.pc <;> rw [hpc] at hp <;> try rfl
    case awaitReady => simp [At, hw] at hp
    case threw x    =>
      have hn : s₁.shared.invoked = [] := List.length_eq_zero_iff.mp (i.resumed.symm.trans hz)
      simp [i.shared.stuck hp.right.right hn] at hs
    all_goals exact absurd hz (hp.right hw)
  simp only [Config.follow]
  split
  case isTrue hl =>
    have hi : shared.invoked ≠ s₁.shared.invoked := fun h => hl (by rw [h])
    have hret := i.shared.returned_of_invoked hs (body_of_enabled he) hi
    obtain hi' | ⟨hi', hr, hc⟩ := (i.shared.step hs).invoked_cases
    · obtain hi'' | ⟨_, hi''⟩ := Rendezvous.step_invoked hs
      · exact absurd hi'' hi
      · simp [hi'] at hi''
    have hw : s₁.waits := by
      by_contra hw
      rw [Bool.not_eq_true] at hw
      exact hc ((pc_continuation he hw hs).trans (i.waits hw))
    have hz : s₁.resumed = 0 := by
      obtain h | ⟨h, _⟩ := i.shared.invoked_cases
      · rw [i.resumed, h]
        rfl
      · exact absurd (hi'.trans h.symm) hl
    exact .inr (.inl ⟨rfl, suspended hw hz, hi', hr, hret⟩)
  case isFalse hl =>
    have hi : shared.invoked = s₁.shared.invoked := by
      obtain hi | ⟨_, hi⟩ := Rendezvous.step_invoked hs
      · exact hi
      · simp [hi] at hl
    split
    case h_2 hx   => exact .inl ⟨rfl, hi, hx⟩
    case h_1 x hx =>
      have hw : s₁.waits := by
        by_contra hw
        rw [Bool.not_eq_true] at hw
        have := (pc_continuation he hw hs).trans (i.waits hw)
        simp [hx] at this
      have hz : s₁.resumed = 0 := by
        by_contra hr
        have hc := i.called hr
        obtain h | ⟨-, h⟩ := Rendezvous.pc_continuation_step hs
        · simp [hx, hc] at h
        · exact h hc
      exact .inr (.inr ⟨x, rfl, suspended hw hz, hi, hx⟩)

theorem step (i : Inv m s₁) (h : m.system.step s₁ a = some s₂) : Inv m s₂ := by
  cases a
  case coroutine => exact i.step_coroutine h
  case shared a  =>
    obtain ⟨shared, hs, he, h⟩ := i.shared_cases h
    have hret (hr : s₁.resumed ≠ 0) : shared.pc .continuation = .returned := by
      obtain h | ⟨-, h⟩ := Rendezvous.pc_continuation_step hs
      · exact h.trans (i.called hr)
      · exact absurd (i.called hr) h
    obtain ⟨rfl, hi, hx⟩ | ⟨rfl, hp, hi, hr, hc⟩ | ⟨x, rfl, hp, hi, hx⟩ := h
    · refine ⟨i.shared.step hs, i.resumed.trans (by rw [hi]), fun hw => (pc_continuation he hw hs).trans (i.waits hw),
        hret, ?_⟩
      have hp := i.pc
      cases hpc : s₁.pc <;> rw [hpc] at hp
      case suspended   => exact ⟨hp.left, hp.right.left, hx⟩
      case threw x     =>
        have hn : s₁.shared.invoked = [] := List.length_eq_zero_iff.mp (i.resumed.symm.trans hp.right.left)
        simp [i.shared.stuck hp.right.right hn] at hs
      case awaitResume =>
        refine ⟨?_, hp.right⟩
        have hr := hp.left
        simp only [Setup.hasResult, Bool.or_eq_true] at hr ⊢
        exact hr.imp_right (Rendezvous.hasResult_step hs)
      all_goals exact hp
    · have hw := i.pc
      rw [hp] at hw
      refine ⟨i.shared.step hs, ?_, fun h => ?_, fun _ => hc, ?_, fun _ => Nat.succ_ne_zero _⟩
      · simp [Config.resume, hw.right, hi]
      · simp [Config.resume, hw.left] at h
      · simp [Setup.hasResult, Config.resume, hr]
    · have hw := i.pc
      rw [hp] at hw
      exact ⟨i.shared.step hs, i.resumed.trans (by rw [hi]), fun h => (pc_continuation he h hs).trans (i.waits h),
        hret, hw.left, hw.right.left, hx⟩

theorem reachable (h : m.system.Reachable s) : Inv m s :=
  h.invariant .init .step

end Inv

-- The handle of the coroutine is resumed at most once, and only if the coroutine is suspended. The `co_await`
-- returns the result of the future, or throws its exception, and does so once, unless `SetContinuation` has
-- thrown in it, which the `co_await` then throws instead of being resumed. When `SetResult` has returned, and
-- `SetContinuation` has returned or thrown, and the executor has run what it has accepted, then the coroutine
-- is not suspended any more.
structure Config.Awaited (m : Setup ε α ξ γ) (s : Config ε α ξ γ) : Prop where
  once     : s.resumed ≤ 1
  resumes  : ∀ {a s'}, m.system.step s a = some s' → s'.resumed ≠ s.resumed → s.pc = .suspended
  returned : ∀ r, s.pc = .returned r → r = m.result.getValue
  threw    : ∀ x, s.pc = .threw x → s.shared.pc .continuation = .threw x ∧ s.resumed = 0
  stays    : ∀ {a s' p}, (∃ r, p = .returned r) ∨ (∃ x, p = .threw x) → s.pc = p → m.system.step s a = some s' → s'.pc = p
  woken    : s.shared.pc (.result ()) = .returned →
    (s.waits → s.shared.pc .continuation = .returned ∨ ∃ x, s.shared.pc .continuation = .threw x) →
    s.shared.tasks = 0 → s.pc ≠ .suspended

theorem awaits_future (h : m.system.Reachable s) : s.Awaited m := by
  have i := Inv.reachable h
  have hp := i.pc
  refine ⟨?once, fun {a s'} hs hr => ?resumes, fun r hr => ?returned, fun x hx => ?threw, fun {a s' p} he hr hs => ?stays,
    fun hr hc ht hs => ?woken⟩
  case once =>
    obtain hi | ⟨hi, _⟩ := i.shared.invoked_cases <;> rw [i.resumed, hi]
    exact Nat.zero_le _
  case resumes =>
    cases a
    case coroutine =>
      cases hpc : s.pc <;> simp only [Setup.system, Setup.step, Setup.coroutine, hpc] at hs
      case awaitReady  => split at hs <;> cases hs <;> exact absurd rfl hr
      case awaitResume => cases hs; exact absurd rfl hr
      all_goals contradiction
    case shared =>
      obtain ⟨_, _, _, ⟨rfl, _⟩ | ⟨_, hp, _⟩ | ⟨_, _, hp, _⟩⟩ := i.shared_cases hs
      · exact absurd rfl hr
      · exact hp
      · exact hp
  case returned =>
    rw [hr] at hp
    exact hp.left
  case threw =>
    rw [hx] at hp
    exact ⟨hp.right.right, hp.right.left⟩
  case stays =>
    have hn : s.pc ≠ .suspended := by
      obtain ⟨_, rfl⟩ | ⟨_, rfl⟩ := he <;> simp [hr]
    cases a
    case coroutine =>
      obtain ⟨_, rfl⟩ | ⟨_, rfl⟩ := he <;> simp [Setup.system, Setup.step, Setup.coroutine, hr] at hs
    case shared =>
      obtain ⟨_, _, _, ⟨rfl, _⟩ | ⟨_, hp, _⟩ | ⟨_, _, hp, _⟩⟩ := i.shared_cases hs
      · exact hr
      · exact absurd hp hn
      · exact absurd hp hn
  case woken =>
    rw [hs] at hp
    have hc := (hc hp.left).resolve_right fun ⟨x, hx⟩ => hp.right.right x hx
    have hd := i.shared.handedOff fun c => by
      cases c
      case result       => exact hr
      case continuation => exact hc
    have hz : s.resumed = 0 := hp.right.left
    obtain ⟨_, hi⟩ | ⟨ht', _⟩ := hd.value
    · simp [i.resumed, hi] at hz
    · simp [ht] at ht'

-- The result arrives during `await_suspend`, and the executor refuses the continuation.

def lateResult : Setup Unit Nat Unit Unit where
  local_ := none
  shared := {
    value _         := .value 5
    func            := ()
    force_scheduled := true
    executor_       := some ()
    context_        := none
    ndebug          := false }

def lateRun (accept : Except (Exception Unit) Bool) (k : Nat) : List (Action Unit) :=
  let reply        := ⟨.ok false, accept, none⟩
  let result       := .shared (.step (.result ()) reply)
  let continuation := .shared (.step .continuation reply)
  [.coroutine] ++ List.replicate 3 continuation ++ List.replicate 4 result ++ List.replicate k continuation

theorem awaits_future_late :
    ∃ s, lateResult.system.Reachable s ∧ s.pc = .returned (.ok 5) ∧ s.resumed = 1 ∧ s.Awaited lateResult := by
  obtain ⟨s, hr, hs⟩ := lateResult.system.exists_reachable
    (lateRun (.ok false) 7 ++ [.coroutine])
    (p := fun s => s.pc = .returned (.ok 5) ∧ s.resumed = 1) (by decide)
  simp only [decide_eq_true_eq] at hs
  exact ⟨s, hr, hs.left, hs.right, awaits_future hr⟩

-- When the executor throws instead, then so does the `co_await`.
example : (lateResult.system.after (lateRun (.error (.thrown ())) 6)).pc = .threw (.thrown ()) := by decide

end FutureAwaiter
end AsyncSimple
