import AsyncSimple.Sync.Producers
import AsyncSimple.Sync.Theorems.Rendezvous
import Mathlib.Data.Fintype.Basic

open Transition

namespace AsyncSimple

namespace Caller

-- Any number of producers behaves like the one producer `w`, if any, that has passed its check.

def collapse : Caller ι → Caller Unit
  | result _     => result ()
  | continuation => continuation

def Viewed (w : Option ι) : Caller ι → Prop
  | result i     => w = some i
  | continuation => True

end Caller

namespace Rendezvous

variable {ε α κ ξ γ ι : Type} [DecidableEq ι]

-- A call that has not published its result, although it has passed its check.
def Pc.unpublished : Pc ε → Bool
  | .write | .load | .casStart | .assertMoved _ | .casDone _ => true
  | _                                                      => false

-- Whether a step is the check of `SetResult` for a result.
def Action.checksResult (s : Config ε α κ ξ γ ι) : Action ε ι → Bool
  | .step (.result i) _ => match s.pc (.result i) with | .check => true | _ => false
  | _                   => false

-- `SetResult` checks for a result only while no other call is about to publish one.
def Exclusive (s : Config ε α κ ξ γ ι) (a : Action ε ι) : Prop :=
  a.checksResult s → ∀ j, (s.pc (.result j)).unpublished = false

instance [Fintype ι] (s : Config ε α κ ξ γ ι) (a : Action ε ι) : Decidable (Exclusive s a) :=
  inferInstanceAs (Decidable (_ → _))

-- Whether the step is taken by a call of `SetResult` whose `ScheduleContinuation` fails in it.
def Action.dispatchFails (s : Config ε α κ ξ γ ι) : Action ε ι → Bool
  | .step (.result i) r => r.fails s (.result i)
  | _                   => false

-- Beyond that, nothing throws that `SetResult` calls: neither the dispatch nor a move of T.
def Undisturbed (s : Config ε α κ ξ γ ι) : MoveAction ε ι → Prop
  | .act a          => Exclusive s a ∧ a.dispatchFails s = false
  | .moveThrows _ _ => False

instance [Fintype ι] (s : Config ε α κ ξ γ ι) (a : MoveAction ε ι) : Decidable (Undisturbed s a) :=
  match a with
  | .act _          => inferInstanceAs (Decidable (_ ∧ _))
  | .moveThrows _ _ => isFalse id

-- The producers whose calls have written `try_value_` or moved `state_` are recorded.
def noteTouched (s₁ : Config ε α κ ξ γ ι) (a : Action ε ι) (s₂ : Config ε α κ ξ γ ι) (l : List ι) :
    List ι :=
  match a with
  | .step (.result i) _ =>
    match s₁.pc (.result i) with
    | .write => l ++ [i]
    | _      => if s₂.fs.state_ = s₁.fs.state_ then l else l ++ [i]
  | _ => l

def noteMoved (s₁ : Config ε α κ ξ γ ι) (a : MoveAction ε ι) (s₂ : Config ε α κ ξ γ ι) (l : List ι) : List ι :=
  match a with
  | .act a          => noteTouched s₁ a s₂ l
  | .moveThrows i _ => l ++ [i]

def rejected : Pc ε :=
  .threw (.logicError "FutureState already has a result")

inductive Finished : Pc ε → Prop
  | returned     : Finished .returned
  | threw        : Finished (.threw x)
  | aborted      : Finished .aborted
  | nullExecutor : Finished .nullExecutor

-- At most one call of `SetResult` is accepted, where `touched` are the producers whose calls have had
-- an effect on the slots of the shared state: this one returns normally, all the others are rejected,
-- and the value of this one is what the future and the continuation get.
structure SingleResult (m : Setup ε α κ ξ γ ι) (s : Config ε α κ ξ γ ι) (touched : List ι) : Prop where
  unique   : ∀ i ∈ touched, ∀ j ∈ touched, i = j
  returned : ∀ i, s.pc (.result i) = .returned → i ∈ touched
  accepted : ∀ i ∈ touched, Finished (s.pc (.result i)) → s.pc (.result i) = .returned
  rejected : ∀ i, Finished (s.pc (.result i)) → i ∉ touched → s.pc (.result i) = rejected
  future   : s.fs.hasResult → ∃ i ∈ touched, s.fs.try_value_ = m.value i
  invoked  : ∀ k v, (k, v) ∈ s.invoked → k = some m.func ∧ ∃ i ∈ touched, v = m.value i
  done     : s.fs.state_ = .kDone → s.fs.continuation_ = some m.func
  asserts  : ∀ c, s.pc c ≠ .aborted

-- The view of the producer `w`.

def Setup.view (m : Setup ε α κ ξ γ ι) (w : Option ι) : Setup ε α κ ξ γ Unit where
  value _         := w.elim .nothing m.value
  func            := m.func
  force_scheduled := m.force_scheduled
  executor_       := m.executor_
  context_        := m.context_
  ndebug          := m.ndebug

def Config.view (s : Config ε α κ ξ γ ι) (w : Option ι) : Config ε α κ ξ γ Unit where
  fs       := s.fs
  pc
    | .result _     => w.elim .check (s.pc <| .result ·)
    | .continuation => s.pc .continuation
  tasks    := s.tasks
  doneBy   := s.doneBy.map (·.collapse)
  calls    := s.calls.map (·.collapse)
  handoffs := s.handoffs
  invoked  := s.invoked

variable {m : Setup ε α κ ξ γ ι} {s s₁ s₂ : Config ε α κ ξ γ ι} {w : Option ι} {c : Caller ι}
variable {r : Reply ε} {a : Action ε ι}

omit [DecidableEq ι] in
theorem pc_view (hc : Caller.Viewed w c) : (s.view w).pc c.collapse = s.pc c := by
  cases c
  case result =>
    cases hc
    rfl
  case continuation => rfl

theorem goto_view (hc : Caller.Viewed w c) (p : Pc ε) :
    (s.goto c p).view w = (s.view w).goto c.collapse p := by
  have h : ((s.goto c p).view w).pc = ((s.view w).goto c.collapse p).pc := by
    funext d
    cases c <;> cases d
    case result.result =>
      cases hc
      simp [Config.view, Config.goto, Caller.collapse]
    case result.continuation => simp [Config.view, Config.goto, Caller.collapse]
    case continuation.result => cases w <;> simp [Config.view, Config.goto, Caller.collapse]
    case continuation.continuation => simp [Config.view, Config.goto, Caller.collapse]
  simp only [Config.goto, Config.view] at h ⊢
  rw [h]

theorem stepSchedule_view (hc : Caller.Viewed w c) (p : SchedulePc) :
    (Setup.stepSchedule s c r p).view w = Setup.stepSchedule (s.view w) c.collapse r p := by
  have ht : c.collapse.triggerByContinuation = c.triggerByContinuation := by cases c <;> rfl
  have hfs : (s.view w).fs = s.fs := rfl
  cases p <;> simp only [Setup.stepSchedule, ht, hfs]
  case entry =>
    split <;> rw [goto_view hc] <;> simp [Config.view, Config.goto]
  all_goals (repeat' split) <;> rw [goto_view hc] <;> rfl

omit [DecidableEq ι] in
theorem write_view (hc : Caller.Viewed w c) :
    (m.write s c).view w = (m.view w).write (s.view w) c.collapse := by
  cases c
  case result =>
    cases hc
    rfl
  case continuation => rfl

-- The callers of the view take the same steps there.
theorem stepCaller_view (hc : Caller.Viewed w c) :
    (m.view w).stepCaller (s.view w) c.collapse r = (m.stepCaller s c r).map (·.view w) := by
  have hfs : (s.view w).fs = s.fs := rfl
  have h₁ : c.collapse.hasSettled = c.hasSettled := by cases c <;> rfl
  have h₂ : c.collapse.rejection = c.rejection := by cases c <;> rfl
  have h₃ : c.collapse.opposite = c.opposite := by cases c <;> rfl
  have h₄ : c.collapse.only = c.only := by cases c <;> rfl
  have h₅ : (m.view w).ndebug = m.ndebug := rfl
  cases hp : s.pc c <;>
    simp only [Setup.stepCaller, pc_view hc, hp, hfs, h₁, h₂, h₃, h₄, h₅,
      apply_ite (Option.map _), Option.map_some, Option.map_none, goto_view hc, write_view hc,
      stepSchedule_view hc]
  case casStart => rfl
  case casDone  => simp [Config.view, Config.goto, Config.setState]

omit [DecidableEq ι] in
theorem runTask_view : Setup.runTask (s.view w) = (Setup.runTask s).map (·.view w) := by
  have ht : (s.view w).tasks = s.tasks := rfl
  simp only [Setup.runTask, ht, apply_ite (Option.map _), Option.map_none, Option.map_some]
  rfl

section Unit

variable {m m' : Setup ε α κ ξ γ Unit} {s : Config ε α κ ξ γ Unit}

-- Before `SetResult` has passed its check, its value does not matter.
theorem Inv.of_check (i : Inv m s) (hc : s.pc (.result ()) = .check) (hf : m'.func = m.func) :
    Inv m' s where
  written d h₁ h₂ := by
    cases d
    case result       => contradiction
    case continuation => exact (i.written .continuation h₁ h₂).trans (congrArg some hf.symm)
  phase := by
    cases i.phase
    case start hs he hi      => exact .start hs he hi
    case half d hs hp hd hi  => exact .half d hs hp hd hi
    case done d _ _ hp hd =>
      cases d
      case result       => exact absurd (hc ▸ .check) hd.not_early
      case continuation => simp [Caller.peer, hc] at hp

-- A call of `SetResult` that is not about to publish its result has published it.
theorem Inv.hasResult (i : Inv m s) (hc : s.pc (.result ()) ≠ .check)
    (hu : (s.pc (.result ())).unpublished = false) : s.fs.hasResult := by
  have hn : ¬ Early (s.pc (.result ())) := by
    intro he
    cases hp : s.pc (.result ()) <;> simp_all [Pc.unpublished] <;> cases he
  cases i.phase
  case start he _ => exact absurd (he _) hn
  case half d hs hp hd hi =>
    cases d
    case result =>
      obtain he | he := hd
      · exact absurd he hn
      · cases hp : s.pc (.result ()) <;> simp_all [Pc.unpublished] <;> cases he
    case continuation => simp [FutureState.hasResult, hs, Caller.opposite]
  case done hs _ _ _ => simp [FutureState.hasResult, hs]

-- Once there is a result, the call of `SetResult` has published it.
theorem Phase.not_early_result (hp : Phase m s) (h : s.fs.hasResult) : ¬ Early (s.pc (.result ())) := by
  cases hp
  case start hs _ _ => simp [FutureState.hasResult, hs] at h
  case half d hs hp _ _ =>
    cases d
    case result       => simp [FutureState.hasResult, hs, Caller.opposite] at h
    case continuation => exact fun he => by cases (show s.pc (.result ()) = Pc.returned from hp) ▸ he
  case done d _ _ hp hd =>
    cases d
    case result       => exact hd.not_early
    case continuation => exact fun he => by cases (show s.pc (.result ()) = Pc.returned from hp) ▸ he

theorem Phase.not_early_continuation (hp : Phase m s) (h : s.fs.state_ = .kDone) :
    ¬ Early (s.pc .continuation) := by
  cases hp
  case start hs _ _   => simp [hs] at h
  case half d hs _ _ _ => cases d <;> simp [hs, Caller.opposite] at h
  case done d _ _ hp hd =>
    cases d
    case continuation => exact hd.not_early
    case result       => exact fun he => by cases (show s.pc .continuation = Pc.returned from hp) ▸ he

theorem Phase.invoked (hp : Phase m s) (h : x ∈ s.invoked) :
    s.fs.state_ = .kDone ∧ x = (some m.func, m.value ()) := by
  cases hp
  case start hi        => simp [hi.invoked] at h
  case half hi         => simp [hi.invoked] at h
  case done d hs _ _ hd => cases hd <;> simp_all

theorem Inv.written_of_not_early (i : Inv m s) {c : Caller Unit} (h : ¬ Early (s.pc c)) :
    Written m s c :=
  i.written c (fun hc => h (hc ▸ .check)) (fun hc => h (hc ▸ .write))

end Unit

-- The invariant, where `w` is the producer that has passed its check.
structure ProducersInv (m : Setup ε α κ ξ γ ι) (s : Config ε α κ ξ γ ι) (touched : List ι)
    (w : Option ι) : Prop where
  inv     : Inv (m.view w) (s.view w)
  passed  : ∀ i, w = some i → s.pc (.result i) ≠ .check
  others  : ∀ i, w ≠ some i → s.pc (.result i) = .check ∨ s.pc (.result i) = rejected
  touched : ∀ i, i ∈ touched ↔ w = some i ∧ s.pc (.result i) ≠ .write
  ended   : ∀ i, w = some i → Finished (s.pc (.result i)) → s.pc (.result i) = .returned

theorem stepCaller_pc_ne {d : Caller ι} (hd : d ≠ c) (h : m.stepCaller s₁ c r = some s₂) :
    s₂.pc d = s₁.pc d := by
  have hg : ∀ (s : Config ε α κ ξ γ ι) p, (s.goto c p).pc d = s.pc d :=
    fun _ _ => Function.update_of_ne hd ..
  cases hp : s₁.pc c <;> simp only [Setup.stepCaller, hp] at h
  case schedule p =>
    cases h
    cases p <;> simp only [Setup.stepSchedule] <;> (repeat' split) <;> rw [hg] <;> rfl
  all_goals
    (repeat' split at h) <;> cases h <;> rw [hg] <;> first | rfl | (cases c <;> rfl)

theorem stepCaller_ne_check (h : m.stepCaller s₁ c r = some s₂) : s₂.pc c ≠ .check := by
  have hg : ∀ (s : Config ε α κ ξ γ ι) p, (s.goto c p).pc c = p :=
    fun _ _ => Function.update_self ..
  cases hp : s₁.pc c <;> simp only [Setup.stepCaller, hp] at h
  case schedule p =>
    cases h
    cases p <;> simp only [Setup.stepSchedule, Setup.afterInvoke] <;> (repeat' split) <;> rw [hg] <;> simp
  all_goals
    (repeat' split at h) <;> cases h <;> rw [hg] <;> simp

theorem stepCaller_write (h : m.stepCaller s₁ c r = some s₂) (hw : s₂.pc c = .write) :
    s₁.pc c = .check ∧ c.hasSettled s₁.fs.state_ = false ∧ s₂ = s₁.goto c .write := by
  have hg : ∀ (s : Config ε α κ ξ γ ι) p, (s.goto c p).pc c = p :=
    fun _ _ => Function.update_self ..
  cases hp : s₁.pc c <;> simp only [Setup.stepCaller, hp] at h
  case check =>
    split at h <;> cases h
    case isTrue  => simp [hg] at hw
    case isFalse => simp_all
  case schedule p =>
    exfalso
    cases h
    cases p <;> simp only [Setup.stepSchedule, Setup.afterInvoke] at hw <;>
      (repeat' split at hw) <;> rw [hg] at hw <;> cases hw
  all_goals
    exfalso
    (repeat' split at h) <;> cases h <;> rw [hg] at hw <;> cases hw

-- A call that has passed its check ends normally, unless the error branch or the assertion is reached, or
-- its dispatch fails.
theorem stepCaller_finished (h : m.stepCaller s₁ c r = some s₂) (hc : s₁.pc c ≠ .check)
    (ht : s₁.pc c ≠ .transferError) (hs : ∀ p, s₁.pc c = .schedule p → s₁.fs.state_ = .kDone)
    (hf : r.fails s₁ c = false) (ha : s₂.pc c ≠ .aborted) (he : Finished (s₂.pc c)) : s₂.pc c = .returned := by
  have hg : ∀ (s : Config ε α κ ξ γ ι) p, (s.goto c p).pc c = p :=
    fun _ _ => Function.update_self ..
  have body (hb : r.body = none) : Setup.afterInvoke r = .returned := by simp [Setup.afterInvoke, hb]
  cases hp : s₁.pc c <;> simp only [Setup.stepCaller, hp] at h
  case check         => contradiction
  case transferError => contradiction
  case schedule p    =>
    cases h
    simp only [Reply.fails, hp] at hf
    cases p <;> simp only [Setup.stepSchedule, hs _ hp, if_true] at he ⊢
    case entry    => rw [hg] at he; cases he
    case inline   => rw [hg, body (by simpa using hf)]
    case fallback => rw [hg, body (by simpa using hf)]
    case decide   =>
      (repeat' split at he) <;> rw [hg] at he <;> cases he
      simp_all [Except.isOk, Except.toBool]
    case submit   =>
      obtain ⟨hn, ho⟩ := Bool.or_eq_false_iff.mp hf
      (repeat' split at he) <;> rw [hg] at he <;> cases he
      all_goals simp_all [Except.isOk, Except.toBool]
  all_goals
    (repeat' split at h) <;> cases h <;> rw [hg] at he ha ⊢ <;> contradiction

omit [DecidableEq ι] in
theorem noteTouched_mem {i j : ι} {l : List ι} :
    j ∈ noteTouched s₁ (.step (.result i) r) s₂ l ↔
    j ∈ l ∨ (j = i ∧ (s₁.pc (.result i) = .write ∨ s₂.fs.state_ ≠ s₁.fs.state_)) := by
  simp only [noteTouched]
  split
  case h_1 hp => simp [hp]
  case h_2 hp =>
    have : s₁.pc (.result i) ≠ .write := hp
    split <;> simp [*]

namespace ProducersInv

variable {l : List ι}

omit [DecidableEq ι] in
theorem init : ProducersInv m m.init [] none where
  inv := by
    have : m.init.view none = (m.view none).init := by
      simp only [Config.view, Setup.init, Config.mk.injEq, List.map_nil, and_true]
      exact ⟨rfl, by funext d; cases d <;> rfl⟩
    exact this ▸ .init
  passed  := nofun
  others  := fun _ _ => .inl rfl
  touched := by simp
  ended   := nofun

theorem step_result {i : ι} (p : ProducersInv m s₁ l (some i)) (hf : r.fails s₁ (.result i) = false)
    (h : m.stepCaller s₁ (.result i) r = some s₂) :
    ProducersInv m s₂ (noteTouched s₁ (.step (.result i) r) s₂ l) (some i) := by
  have hv := stepCaller_view (m := m) (s := s₁) (r := r) (show Caller.Viewed (some i) (.result i) from rfl)
  have hw : s₂.pc (.result i) ≠ .write := fun hw => p.passed i rfl (stepCaller_write h hw).left
  have inv : Inv (m.view (some i)) (s₂.view (some i)) := p.inv.step_caller (by rw [hv, h]; rfl)
  refine ⟨inv, fun j hj => ?_, fun j hj => ?_, fun j => ?_, fun j hj he => ?_⟩
  · cases hj
    exact stepCaller_ne_check h
  · have : Caller.result j ≠ .result i := fun h => hj (by cases h; rfl)
    rw [stepCaller_pc_ne this h]
    exact p.others j hj
  · rw [noteTouched_mem, p.touched]
    by_cases hj : j = i
    · subst hj
      by_cases s₁.pc (.result j) = .write <;> simp [*]
    · simp [hj, Ne.symm hj]
  · cases hj
    refine stepCaller_finished h (p.passed i rfl) ?_ (fun _ hp => ?_) hf ?_ he
    · exact (p.inv.phase.no_error (.result ())).right
    · exact (p.inv.phase.schedule (c := .result ()) hp).left
    · exact (inv.phase.no_error (.result ())).left

theorem step_continuation (p : ProducersInv m s₁ l w)
    (h : m.stepCaller s₁ .continuation r = some s₂) : ProducersInv m s₂ l w := by
  have hv := stepCaller_view (m := m) (s := s₁) (r := r) (show Caller.Viewed w .continuation from trivial)
  have hp : ∀ i, s₂.pc (.result i) = s₁.pc (.result i) :=
    fun i => stepCaller_pc_ne (d := .result i) (by simp) h
  refine ⟨p.inv.step_caller (by rw [hv, h]; rfl), ?_, ?_, ?_, ?_⟩
  all_goals simp only [hp]
  · exact p.passed
  · exact p.others
  · exact p.touched
  · exact p.ended

-- Another producer is rejected, unless it is the first one to pass its check.
theorem step_other {i : ι} (p : ProducersInv m s₁ l w) (hw : w ≠ some i)
    (he : Exclusive s₁ (.step (.result i) r)) (h : m.stepCaller s₁ (.result i) r = some s₂) :
    ∃ w, ProducersInv m s₂ (noteTouched s₁ (.step (.result i) r) s₂ l) w := by
  obtain hc | hr := p.others i hw
  case inr => simp [Setup.stepCaller, hr, rejected] at h
  have hne : ∀ {j}, j ≠ i → s₂.pc (.result j) = s₁.pc (.result j) :=
    fun hj => stepCaller_pc_ne (d := .result _) (by simpa using hj) h
  have hcont : s₂.pc .continuation = s₁.pc .continuation :=
    stepCaller_pc_ne (d := .continuation) (by simp) h
  by_cases hs : s₁.fs.hasResult
  case pos =>
    simp only [Setup.stepCaller, hc, Caller.hasSettled, show s₁.fs.state_.hasResult from hs, if_true,
      Option.some.injEq] at h
    have hp : s₂.pc (.result i) = rejected := by
      simp [← h, Config.goto, Caller.rejection, rejected]
    have hv : s₂.view w = s₁.view w := by
      have : s₂ = { s₁ with pc := s₂.pc } := by rw [← h]; rfl
      rw [this]
      simp only [Config.view, Config.mk.injEq, true_and, and_true]
      funext d
      cases d
      case continuation => exact hcont
      case result =>
        cases w
        case none   => rfl
        case some j => exact hne fun h => hw (h ▸ rfl)
    refine ⟨w, hv ▸ p.inv, fun j hj => ?_, fun j hj => ?_, fun j => ?_, fun j hj => ?_⟩
    · rw [hne fun h => hw (h ▸ hj)]
      exact p.passed j hj
    · by_cases hji : j = i
      · exact .inr (hji ▸ hp)
      · rw [hne hji]
        exact p.others j hj
    · rw [noteTouched_mem, p.touched]
      by_cases hji : j = i
      · subst hji
        simp [hw, hc, ← h, Config.goto]
      · simp [hne hji, hji]
    · rw [hne fun h => hw (h ▸ hj)]
      exact p.ended j hj
  case neg =>
    cases w
    case some k =>
      have hu := he (by simp [Action.checksResult, hc]) k
      exact absurd (p.inv.hasResult (p.passed k rfl) hu) hs
    case none =>
      have hv : s₁.view (some i) = s₁.view none := by
        simp only [Config.view, Config.mk.injEq, true_and, and_true]
        funext d
        cases d
        case continuation => rfl
        case result       => exact hc
      have inv : Inv (m.view (some i)) (s₁.view (some i)) := hv ▸ p.inv.of_check rfl rfl
      have hvs := stepCaller_view (m := m) (s := s₁) (r := r)
        (show Caller.Viewed (some i) (.result i) from rfl)
      have hs' : s₁.fs.state_.hasResult = false := eq_false_of_ne_true hs
      have h₂ : s₂ = s₁.goto (.result i) .write := by
        simp only [Setup.stepCaller, hc, Caller.hasSettled, hs', Bool.false_eq_true, if_false,
          Option.some.injEq] at h
        exact h.symm
      have hp₂ : s₂.pc (.result i) = .write := h₂ ▸ Function.update_self ..
      refine ⟨some i, inv.step_caller (by rw [hvs, h]; rfl), fun j hj => ?_, fun j hj => ?_, fun j => ?_,
        fun j hj he => ?_⟩
      · cases hj
        exact stepCaller_ne_check h
      · rw [hne fun h => hj (h ▸ rfl)]
        exact p.others j (by simp)
      · rw [noteTouched_mem, p.touched, hc, h₂]
        simp only [Config.goto, reduceCtorEq, false_and, ne_eq, not_true_eq_false, or_self,
          and_false, Option.some.injEq, false_iff, not_and, not_not]
        rintro rfl
        exact Function.update_self ..
      · cases hj
        rw [hp₂] at he
        cases he

theorem step (p : ProducersInv m s₁ l w) (he : Exclusive s₁ a) (hf : a.dispatchFails s₁ = false)
    (h : m.system.step s₁ a = some s₂) :
    ∃ w, ProducersInv m s₂ (noteTouched s₁ a s₂ l) w := by
  cases a
  case runTask =>
    have hv := runTask_view (s := s₁) (w := w)
    have hr : Setup.runTask s₁ = some s₂ := h
    have hp : s₂.pc = s₁.pc := by
      simp only [Setup.runTask] at hr
      split at hr <;> cases hr
      rfl
    rw [hr] at hv
    have i : Inv (m.view w) (s₂.view w) := p.inv.step (a := .runTask) hv
    exact ⟨w, i, hp ▸ p.passed, hp ▸ p.others, hp ▸ p.touched, hp ▸ p.ended⟩
  case step c r =>
    cases c
    case continuation => exact ⟨w, p.step_continuation h⟩
    case result i =>
      by_cases hw : w = some i
      · subst hw
        exact ⟨_, p.step_result hf h⟩
      · exact p.step_other hw he h

omit [DecidableEq ι] in
-- The producer that has published the result is the one that has passed its check.
theorem winner (p : ProducersInv m s l w) (h : ¬ Early ((s.view w).pc (.result ()))) :
    ∃ i ∈ l, w = some i := by
  cases w
  case none => exact absurd .check h
  case some i => exact ⟨i, (p.touched i).mpr ⟨rfl, fun hw => h (by simpa [Config.view, hw] using .write)⟩, rfl⟩

theorem singleResult (p : ProducersInv m s l w) : SingleResult m s l where
  unique i hi j hj := by
    have := ((p.touched i).mp hi).left.symm.trans ((p.touched j).mp hj).left
    exact Option.some.inj this
  returned i hr := by
    by_cases hw : w = some i
    · exact (p.touched i).mpr ⟨hw, by simp [hr]⟩
    · obtain h | h := p.others i hw <;> simp [hr, rejected] at h
  accepted i hi hf := p.ended i ((p.touched i).mp hi).left hf
  rejected i hf hi := by
    by_cases hw : w = some i
    · exact absurd ((p.touched i).mpr ⟨hw, fun h => by cases h ▸ hf⟩) hi
    · exact (p.others i hw).resolve_left fun h => by cases h ▸ hf
  future h := by
    have he := p.inv.phase.not_early_result h
    obtain ⟨i, hi, rfl⟩ := p.winner he
    exact ⟨i, hi, p.inv.written_of_not_early he⟩
  invoked k v h := by
    obtain ⟨hs, hx⟩ := p.inv.phase.invoked (s := s.view w) h
    have he := p.inv.phase.not_early_result (by simp [FutureState.hasResult, hs])
    obtain ⟨i, hi, rfl⟩ := p.winner he
    cases hx
    exact ⟨rfl, i, hi, rfl⟩
  done h := p.inv.written_of_not_early (p.inv.phase.not_early_continuation h)
  asserts c := by
    by_cases hc : c.Viewed w
    · exact pc_view hc ▸ (p.inv.phase.no_error _).left
    · cases c
      case continuation => exact absurd trivial hc
      case result i     => obtain h | h := p.others i hc <;> simp [h, rejected]

end ProducersInv

variable [Fintype ι]

-- In every run in which no two producers are past their check at once, and nothing throws that `SetResult`
-- calls, at most one of them sets the result, and the others are rejected.
theorem setResult_once {r : Config ε (Option α) κ ξ γ ι × List ι}
    (h : ((m.moving.record [] noteMoved).restrict fun r => Undisturbed r.1).Reachable r) :
    SingleResult m.lift r.1 r.2 := by
  suffices ∃ w, ProducersInv m.lift r.1 r.2 w from this.choose_spec.singleResult
  refine h.invariant (I := fun r => ∃ w, ProducersInv m.lift r.1 r.2 w) ⟨none, ProducersInv.init⟩
    fun {_ a _} ⟨w, p⟩ hs => ?_
  obtain ⟨he, hs⟩ := System.restrict_step.mp hs
  obtain ⟨hs, hn⟩ := System.record_step.mp hs
  cases a
  case moveThrows => exact he.elim
  case act        =>
    simp only [Setup.moving] at hs
    split at hs
    case isTrue  => contradiction
    case isFalse => exact hn ▸ p.step he.left he.right hs

-- Two producers without an executor.
def producersSetup (ndebug : Bool) : Setup Unit Nat String Unit Unit Bool where
  value
    | false => .value 1
    | true  => .value 2
  func            := "f"
  force_scheduled := false
  executor_       := none
  context_        := none
  ndebug          := ndebug

def producerSteps (c : Caller Bool) (k : Nat) : List (MoveAction Unit Bool) :=
  List.replicate k (.act (.step c ⟨.ok false, .ok true, none⟩))

-- The first producer sets its result, the second one is rejected, and the continuation is run.
theorem setResult_once_rejected :
    ∃ r : Config Unit (Option Nat) String Unit Unit Bool × List Bool,
      r.2 = [false, false] ∧ r.1.invoked = [(some "f", .value (some 1))] ∧
      SingleResult (producersSetup false).lift r.1 r.2 := by
  obtain ⟨r, hr, hs⟩ := (((producersSetup false).moving.record [] noteMoved).restrict
      fun r => Undisturbed r.1).exists_reachable
    (producerSteps (.result false) 4 ++ producerSteps (.result true) 1 ++ producerSteps .continuation 7)
    (p := fun r => r.2 = [false, false] ∧ r.1.invoked = [(some "f", .value (some 1))]) (by decide)
  simp only [Bool.decide_and, Bool.and_eq_true, decide_eq_true_eq] at hs
  exact ⟨r, hs.left, hs.right, setResult_once hr⟩

-- When both producers pass their checks, then the second one overwrites the value of the first one
-- before it throws; and without assertions it may even move the state to `kDone`, although there is
-- no continuation. When the continuation throws, then the call throws that has set the result; and when
-- a move of T throws, then so does the call, and `try_value_` is torn.
theorem setResult_twice :
    (∃ r, ((producersSetup false).moving.record [] noteMoved).Reachable r ∧
      r.1.pc (.result false) = .returned ∧
      r.1.pc (.result true) = .threw (.logicError "State Transfer Error") ∧
      r.1.fs.try_value_ = .value (some 2) ∧ ¬ SingleResult (producersSetup false).lift r.1 r.2) ∧
    (∃ r, ((producersSetup true).moving.record [] noteMoved).Reachable r ∧
      r.1.fs.state_ = .kDone ∧ r.1.fs.continuation_ = none ∧
      ¬ SingleResult (producersSetup true).lift r.1 r.2) ∧
    (∃ r, ((producersSetup false).moving.record [] noteMoved).Reachable r ∧
      r.1.fs.state_ = .kDone ∧ r.1.pc (.result false) = .threw (.thrown ()) ∧
      ¬ SingleResult (producersSetup false).lift r.1 r.2) ∧
    (∃ r, ((producersSetup false).moving.record [] noteMoved).Reachable r ∧
      r.1.fs.torn ∧ r.1.pc (.result false) = .threw (.thrown ()) ∧
      ¬ SingleResult (producersSetup false).lift r.1 r.2) := by
  refine ⟨?_, ?_, ?_, ?_⟩
  · obtain ⟨r, hr, hs⟩ := ((producersSetup false).moving.record [] noteMoved).exists_reachable
      (producerSteps (.result false) 1 ++ producerSteps (.result true) 1 ++
        producerSteps (.result false) 3 ++ producerSteps (.result true) 3)
      (p := fun r => r.2 = [false, false, true] ∧ r.1.pc (.result false) = .returned ∧
        r.1.pc (.result true) = .threw (.logicError "State Transfer Error") ∧
        r.1.fs.try_value_ = .value (some 2)) (by decide)
    simp only [Bool.decide_and, Bool.and_eq_true, decide_eq_true_eq] at hs
    refine ⟨r, hr, hs.2.1, hs.2.2.1, hs.2.2.2, fun h => ?_⟩
    simpa using h.unique false (by simp [hs.1]) true (by simp [hs.1])
  · obtain ⟨r, hr, hs⟩ := ((producersSetup true).moving.record [] noteMoved).exists_reachable
      (producerSteps (.result false) 3 ++ producerSteps (.result true) 3 ++
        producerSteps (.result false) 1 ++ producerSteps (.result true) 3)
      (p := fun r => r.1.fs.state_ = .kDone ∧ r.1.fs.continuation_ = none) (by decide)
    simp only [Bool.decide_and, Bool.and_eq_true, decide_eq_true_eq] at hs
    refine ⟨r, hr, hs.left, hs.right, fun h => ?_⟩
    simpa [hs.right] using h.done hs.left
  · obtain ⟨r, hr, hs⟩ := ((producersSetup false).moving.record [] noteMoved).exists_reachable
      (producerSteps .continuation 4 ++ producerSteps (.result false) 6 ++
        [.act (.step (.result false) ⟨.ok false, .ok true, some (.thrown ())⟩)])
      (p := fun r => r.1.fs.state_ = .kDone ∧ r.1.pc (.result false) = .threw (.thrown ()) ∧ false ∈ r.2) (by decide)
    simp only [Bool.decide_and, Bool.and_eq_true, decide_eq_true_eq] at hs
    refine ⟨r, hr, hs.1, hs.2.1, fun h => ?_⟩
    simpa [hs.2.1] using h.accepted false hs.2.2 (hs.2.1 ▸ .threw)
  · obtain ⟨r, hr, hs⟩ := ((producersSetup false).moving.record [] noteMoved).exists_reachable
      (producerSteps (.result false) 1 ++ [.moveThrows false (.thrown ())])
      (p := fun r => r.1.fs.torn ∧ r.1.pc (.result false) = .threw (.thrown ()) ∧ false ∈ r.2) (by decide)
    simp only [Bool.decide_and, Bool.and_eq_true, decide_eq_true_eq] at hs
    refine ⟨r, hr, hs.1, hs.2.1, fun h => ?_⟩
    simpa [hs.2.1] using h.accepted false hs.2.2 (hs.2.1 ▸ .threw)

end Rendezvous
end AsyncSimple
