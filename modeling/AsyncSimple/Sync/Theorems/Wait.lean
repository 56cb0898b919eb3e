import AsyncSimple.Sync.Wait
import AsyncSimple.Sync.Theorems.Propagation

open Transition

namespace AsyncSimple
namespace Wait

variable {ε α ξ : Type}

-- The future as it is when its promise has been used before `Wait`.
def ready : Fut ε α ξ → Fut ε α ξ
  | .localState r executor         => .localState r executor
  | .sharedState fate _ executor   => .sharedState (.fulfilled fate.outcome) true executor

-- What `Wait` is to leave as it is. The chains of callbacks that can be attached to the future have the
-- same runs as those of a future whose promise has been used before.
structure Unchanged (m : Setup ε α ξ) (s : Config ε α ξ) : Prop where
  result       : s.result = some (.makeTryCall m.source.outcome)
  executor     : s.executor = m.source.executor
  continuation : s.hasContinuation = false
  chains       : ∀ {n} (unit : α) (callbacks : Fin n → Callback ε α ξ) c,
    (Chain.Setup.mk unit s.future callbacks).system.Reachable c ↔
    (Chain.Setup.mk unit (ready m.source) callbacks).system.Reachable c

-- The promise has been used if and only if the result is there.
inductive Held (t : Try ε α) (s : Config ε α ξ) : Prop
  | pending : (s.promise = some fate) → (t = .makeTryCall fate.outcome) → (s.shared.hasResult = false) → Held t s
  | ready   : (s.promise = none) → (s.shared.hasResult = true) → (s.shared.try_value_ = t) → Held t s

-- The steps of `Wait` on a future with a shared state.
inductive Stage (t : Try ε α) (executor : Option ξ) (s : Config ε α ξ) : Prop
  | check :
    (s.target = .sharedState) → (s.shared.executor_ = executor) → (s.shared.hasContinuation = false) →
    (s.dispatch = none) → (s.released = false) → (s.late = false) →
    (s.pc = .hasResult ∨ s.pc = .returned ∧ s.shared.hasResult = true) → Stage t executor s
  | late :
    (s.target = .sharedState) → (s.shared.executor_ = executor) → (s.shared.hasContinuation = false) →
    (s.dispatch = none) → (s.released = false) → (s.late = true) →
    (s.pc = .currentThreadInExecutor ∨ s.pc = .makePromise ∨ (s.pc = .setExecutor ∧ s.own = .new) ∨
      (s.pc = .threw ∨ s.pc = .aborted) ∧ executor.isSome) → Stage t executor s
  | cleared :
    (s.target = .sharedState) → (s.shared.executor_ = none) → (s.shared.hasContinuation = false) →
    (s.dispatch = none) → (s.released = false) → (s.late = true) → (s.own = .new) →
    (s.pc = .setContinuation) → Stage t executor s
  | attached :
    (s.target = .sharedState) → (s.shared.executor_ = none) → (s.shared.hasContinuation = true) →
    (s.dispatch.isSome = s.shared.hasResult) → (s.released = false) → (s.late = true) → (s.own = .new) →
    (s.pc = .acquire) → Stage t executor s
  | released :
    (s.dispatch = none) → (s.released = true) → (s.late = true) → (s.own = FutureState.new.withResult t) →
    (s.shared.hasResult = true) → (s.shared.force_scheduled = false) →
    (s.target = .sharedState ∧ (s.pc = .acquire ∨ s.pc = .moveAssign) ∨ s.target = .own ∧ s.pc = .returned) →
    Stage t executor s

structure Shared (m : Setup ε α ξ) (s : Config ε α ξ) : Prop where
  held   : Held (.makeTryCall m.source.outcome) s
  forced : s.shared.force_scheduled = m.force_scheduled
  stage  : Stage (.makeTryCall m.source.outcome) m.source.executor s

inductive Inv (m : Setup ε α ξ) (s : Config ε α ξ) : Prop
  | localState  : (m.source.isLocal) → (s = m.init ∨ s = { m.init with pc := .returned }) → Inv m s
  | sharedState : (m.source.isLocal = false) → Shared m s → Inv m s

variable {m : Setup ε α ξ} {s s₁ s₂ : Config ε α ξ} {t : Try ε α} {executor : Option ξ}

namespace Held

theorem congr (h : Held t s₁) (hp : s₂.promise = s₁.promise) (hr : s₂.shared.hasResult = s₁.shared.hasResult)
    (ht : s₂.shared.try_value_ = s₁.shared.try_value_) : Held t s₂ := by
  cases h
  case pending h₁ h₂ h₃ => exact .pending (hp.trans h₁) h₂ (hr.trans h₃)
  case ready h₁ h₂ h₃   => exact .ready (hp.trans h₁) (hr.trans h₂) (ht.trans h₃)

theorem try_value (h : Held t s) (hr : s.shared.hasResult = true) : s.shared.try_value_ = t := by
  cases h
  case pending h => simp [hr] at h
  case ready h   => exact h

end Held

namespace Shared

theorem init (hm : m.source = .sharedState fate early e) : Shared m m.init := by
  refine ⟨?_, ?_, .check ?_ ?_ ?_ ?_ ?_ ?_ (.inl ?_)⟩
  case refine_1 =>
    have ht : (.makeTryCall m.source.outcome : Try ε α) = .makeTryCall fate.outcome := by rw [hm]; rfl
    cases early
    case false =>
      exact .pending (by simp [Setup.init, hm]) ht (by simp [Setup.init, hm, FutureState.hasResult, FutureState.new])
    case true  =>
      exact .ready (by simp [Setup.init, hm]) (by simp [Setup.init, hm, FutureState.hasResult])
        (by simp [Setup.init, hm, Fut.outcome])
  all_goals cases early <;> simp [Setup.init, hm, FutureState.hasContinuation, FutureState.new, Fut.executor]

theorem wait {inExecutor : Option Bool} (h : Shared m s₁) (hs : s₁.wait inExecutor = some s₂) : Shared m s₂ := by
  cases h.stage
  case check ht he hc hd hr hl hpc =>
    have hx : s₁.hasResult = s₁.shared.hasResult := by simp [Config.hasResult, ht]
    obtain hpc | ⟨hpc, _⟩ := hpc <;> simp only [Config.wait, hpc] at hs <;> try contradiction
    case inl =>
    split at hs <;> cases hs
    case isTrue hres => exact ⟨h.held.congr rfl rfl rfl, h.forced, .check ht he hc hd hr hl (.inr ⟨rfl, hx ▸ hres⟩)⟩
    case isFalse     => exact ⟨h.held.congr rfl rfl rfl, h.forced, .late ht he hc hd hr rfl (.inl rfl)⟩
  case late ht he hc hd hr hl hpc =>
    have next {pc own} (hpc) : Shared m { s₁ with pc := pc, own := own } :=
      ⟨h.held.congr rfl rfl rfl, h.forced, .late ht he hc hd hr hl hpc⟩
    obtain hpc | hpc | ⟨hpc, ho⟩ | ⟨hpc | hpc, _⟩ := hpc <;> simp only [Config.wait, hpc] at hs <;> try contradiction
    · split at hs
      case isFalse => exact Option.some.inj hs ▸ next (.inr (.inl rfl))
      case isTrue hsome =>
        rw [he] at hsome
        cases inExecutor
        case none => exact Option.some.inj hs ▸ next (.inr (.inr (.inr ⟨.inl rfl, hsome⟩)))
        case some b =>
          cases b
          case true  => exact Option.some.inj hs ▸ next (.inr (.inr (.inr ⟨.inr rfl, hsome⟩)))
          case false => exact Option.some.inj hs ▸ next (.inr (.inl rfl))
    · exact Option.some.inj hs ▸ next (.inr (.inr (.inl ⟨rfl, rfl⟩)))
    · cases hs
      exact ⟨h.held.congr rfl rfl rfl, h.forced, .cleared ht rfl hc hd hr hl ho rfl⟩
  case cleared ht he hc hd hr hl ho hpc =>
    simp only [Config.wait, hpc, FutureState.setContinuation_withContinuation hc] at hs
    split at hs <;> cases hs
    case h_1 hk =>
      obtain ⟨rfl, hres⟩ := Prod.mk.inj (Except.ok.inj hk)
      exact ⟨h.held.congr rfl (by simp) rfl, h.forced, .attached ht he (by simp) (by simp [hres]) hr hl ho rfl⟩
    case h_2 hk =>
      obtain ⟨rfl, hres⟩ := Prod.mk.inj (Except.ok.inj hk)
      exact ⟨h.held.congr rfl (by simp) rfl, h.forced, .attached ht he (by simp) (by simp [hres, hd]) hr hl ho rfl⟩
    case h_3 => contradiction
  case attached hr _ _ hpc => simp [Config.wait, hpc, hr] at hs
  case released hd hr hl ho hres hf hpc =>
    obtain ⟨ht, hpc | hpc⟩ | ⟨_, hpc⟩ := hpc <;> simp only [Config.wait, hpc, hr, if_true] at hs <;> cases hs
    · exact ⟨h.held.congr rfl rfl rfl, h.forced, .released hd rfl hl ho hres hf (.inl ⟨ht, .inr rfl⟩)⟩
    · exact ⟨h.held.congr rfl rfl rfl, h.forced, .released hd rfl hl ho hres hf (.inr ⟨rfl, rfl⟩)⟩

theorem fulfil (h : Shared m s₁) (hs : s₁.fulfil = some s₂) : Shared m s₂ := by
  obtain ⟨hp, ht, hr⟩ | ⟨hp, _, _⟩ := h.held <;> simp only [Config.fulfil, hp] at hs <;> try contradiction
  case pending fate =>
  simp only [FutureState.setResult_withResult hr] at hs
  have held {s : Config ε α ξ} (h₁ : s.promise = none) (h₂ : s.shared = s₁.shared.withResult (.makeTryCall fate.outcome)) :
      Held (.makeTryCall m.source.outcome) s := .ready h₁ (by simp [h₂]) (by simp [h₂, ht])
  cases h.stage
  case released hres _ _ => simp [hr] at hres
  case attached h₁ he hc hd hrel hl ho hpc =>
    simp only [hc] at hs
    cases hs
    exact ⟨held rfl rfl, h.forced, .attached h₁ he (by simp [hc]) (by simp) hrel hl ho hpc⟩
  case check h₁ he hc hd hrel hl hpc =>
    simp only [hc] at hs
    cases hs
    exact ⟨held rfl rfl, h.forced, .check h₁ he (by simp [hc]) hd hrel hl (hpc.imp_right fun h => ⟨h.left, by simp⟩)⟩
  case late h₁ he hc hd hrel hl hpc =>
    simp only [hc] at hs
    cases hs
    exact ⟨held rfl rfl, h.forced, .late h₁ he (by simp [hc]) hd hrel hl hpc⟩
  case cleared h₁ he hc hd hrel hl ho hpc =>
    simp only [hc] at hs
    cases hs
    exact ⟨held rfl rfl, h.forced, .cleared h₁ he (by simp [hc]) hd hrel hl ho hpc⟩

theorem schedule {inExecutor : Bool} (h : Shared m s₁) (hs : s₁.schedule inExecutor = some s₂) : Shared m s₂ := by
  cases hd : s₁.dispatch <;> simp only [Config.schedule, hd] at hs <;> try contradiction
  cases h.stage
  case attached ht he hc hdr hrel hl ho hpc =>
    have hres : s₁.shared.hasResult = true := by simpa [hd] using hdr.symm
    obtain ⟨hf, hs⟩ : s₁.shared.force_scheduled = false ∧ s₁.continuation = some s₂ := by
      split at hs
      case isTrue hi => exact ⟨by simpa [FutureState.runsInline, he] using hi, hs⟩
      case isFalse   => simp [FutureState.submission, he] at hs
    simp only [Config.continuation, ho, FutureState.setResult_withResult FutureState.hasResult_new,
      h.held.try_value hres] at hs
    cases hs
    exact ⟨h.held.congr rfl rfl rfl, h.forced, .released rfl rfl hl rfl hres hf (.inl ⟨ht, .inl hpc⟩)⟩
  all_goals simp_all

end Shared

namespace Inv

theorem init : Inv m m.init := by
  cases hm : m.source
  case localState  => exact .localState (by simp [hm, Fut.isLocal]) (.inl rfl)
  case sharedState => exact .sharedState (by simp [hm, Fut.isLocal]) (Shared.init hm)

theorem step (i : Inv m s₁) (h : m.system.step s₁ a = some s₂) : Inv m s₂ := by
  cases i
  case sharedState hm i =>
    refine .sharedState hm ?_
    cases a
    case wait     => exact i.wait h
    case fulfil   => exact i.fulfil h
    case schedule => exact i.schedule h
  case localState hm hs =>
    cases hsrc : m.source <;> simp only [hsrc, Fut.isLocal, Bool.false_eq_true] at hm
    case localState r e =>
    have hi : m.init.hasResult := by simp [Setup.init, hsrc, Config.hasResult]
    refine .localState (by simp [hsrc, Fut.isLocal]) ?_
    obtain rfl | rfl := hs <;> cases a <;> simp only [Setup.system] at h
    case inl.wait =>
      simp only [Config.wait, hi, if_true, show m.init.pc = .hasResult by simp [Setup.init, hsrc]] at h
      exact .inr (Option.some.inj h).symm
    all_goals simp [Config.fulfil, Config.schedule, Config.wait, Setup.init, hsrc] at h

theorem reachable (h : m.system.Reachable s) : Inv m s :=
  h.invariant init step

end Inv

theorem ready_of_shared (hm : m.source.isLocal = false) :
    ready m.source = .sharedState (.fulfilled m.source.outcome) true m.source.executor := by
  cases h : m.source
  case localState  => simp [h, Fut.isLocal] at hm
  case sharedState => rfl

theorem Unchanged.of_future (hr : s.result = some (.makeTryCall m.source.outcome)) (he : s.executor = m.source.executor)
    (hc : s.hasContinuation = false) (hf : s.future = ready m.source) : Unchanged m s :=
  ⟨hr, he, hc, fun _ _ _ => by rw [hf]⟩

section Quiescent

-- When no step is left, the promise has been used.
theorem Held.of_quiescent (h : Held t s) (hq : m.system.Quiescent s) :
    s.shared.hasResult = true ∧ s.shared.try_value_ = t := by
  cases h
  case ready h₁ h₂ => exact ⟨h₁, h₂⟩
  case pending fate hp _ hr =>
    have h : s.fulfil = none := hq .fulfil
    simp only [Config.fulfil, hp, FutureState.setResult_withResult hr] at h
    split at h <;> simp_all

theorem Shared.unchanged_iff (h : Shared m s) (hm : m.source.isLocal = false) (hq : m.system.Quiescent s) :
    (s.pc = .returned ∧ Unchanged m s) ↔
      s.late = false ∨ m.source.executor = none ∧ m.force_scheduled = false := by
  obtain ⟨hres, ht⟩ := h.held.of_quiescent hq
  have hw : s.wait (some false) = none := hq (.wait (some false))
  cases h.stage
  case check hs he hc hd hr hl hpc =>
    obtain hpc | ⟨hpc, _⟩ := hpc
    case inl =>
      simp only [Config.wait, hpc] at hw
      split at hw <;> contradiction
    case inr =>
      refine ⟨fun _ => .inl hl, fun _ => ⟨hpc, .of_future ?_ ?_ ?_ ?_⟩⟩
      all_goals simp [Config.result, Config.hasResult, Config.executor, Config.hasContinuation, Config.future,
        hs, hres, ht, he, hc, ready_of_shared hm]
  case late hs he hc hd hr hl hpc =>
    obtain hpc | hpc | ⟨hpc, _⟩ | ⟨hpc, he⟩ := hpc
    case inl =>
      simp only [Config.wait, hpc] at hw
      split at hw <;> contradiction
    case inr.inl     => simp [Config.wait, hpc] at hw
    case inr.inr.inl => simp [Config.wait, hpc] at hw
    case inr.inr.inr =>
      refine iff_of_false (fun h => ?_) fun h => ?_
      · obtain hpc | hpc := hpc <;> simp [hpc] at h
      · simp [hl, Option.isSome_iff_ne_none.mp he] at h
  case cleared hc _ _ _ _ hpc =>
    simp only [Config.wait, hpc, FutureState.setContinuation_withContinuation hc] at hw
    split at hw <;> contradiction
  case attached hs he hc hd hr hl ho hpc =>
    refine iff_of_false (by simp [hpc]) fun hf => ?_
    have hf : s.shared.force_scheduled = false := h.forced.trans (hf.resolve_left (by simp [hl])).right
    obtain ⟨b, hb⟩ := Option.isSome_iff_exists.mp (hd.trans hres)
    have hsch : s.schedule false = none := hq (.schedule false)
    simp [Config.schedule, hb, FutureState.runsInline, hf, he, Config.continuation, ho,
      FutureState.setResult_withResult FutureState.hasResult_new] at hsch
  case released hd hr hl ho _ hf hpc =>
    obtain ⟨_, hpc | hpc⟩ | ⟨hs, hpc⟩ := hpc
    · simp [Config.wait, hpc, hr] at hw
    · simp [Config.wait, hpc] at hw
    · have he : s.executor = none := by simp [Config.executor, hs, ho, FutureState.new]
      constructor
      case mp  => exact fun h' => .inr ⟨h'.right.executor.symm.trans he, h.forced.symm.trans hf⟩
      case mpr =>
        intro h
        have hexec := (h.resolve_left (by simp [hl])).left
        have hn : (FutureState.new : FutureState ε α Empty ξ Empty).executor_ = none := rfl
        refine ⟨hpc, .of_future ?_ (he.trans hexec.symm) ?_ ?_⟩
        all_goals simp [Config.result, Config.hasResult, Config.hasContinuation, Config.future, hs, ho,
          ready_of_shared hm, hexec, hn]

end Quiescent

-- When nothing is left to be done, `Wait` has returned and left the future as it was, exactly if it has
-- found the result when it has looked for it first, or there is no executor and nothing is to be scheduled.
theorem wait_unchanged_iff (h : m.system.Reachable s) (hq : m.system.Quiescent s) :
    (s.pc = .returned ∧ Unchanged m s) ↔
      s.late = false ∨ m.source.executor = none ∧ m.force_scheduled = false := by
  cases Inv.reachable h
  case sharedState hm i => exact i.unchanged_iff hm hq
  case localState hm hs =>
    cases hsrc : m.source <;> simp only [hsrc, Fut.isLocal, Bool.false_eq_true] at hm
    case localState r e =>
    obtain rfl | rfl := hs
    case inl =>
      have hw : m.init.wait none = none := hq (.wait none)
      simp [Config.wait, Setup.init, hsrc, Config.hasResult] at hw
    case inr =>
      refine iff_of_true ⟨rfl, .of_future ?_ ?_ ?_ ?_⟩ (.inl ?_)
      all_goals simp [Config.result, Config.hasResult, Config.executor, Config.hasContinuation, Config.future,
        Setup.init, hsrc, Fut.outcome, Fut.executor, ready]

-- Every run ends.

def Pc.rank : Pc → Nat
  | .hasResult                     => 8
  | .currentThreadInExecutor       => 7
  | .makePromise                   => 6
  | .setExecutor                   => 5
  | .setContinuation               => 4
  | .acquire                       => 2
  | .moveAssign                    => 1
  | .returned | .threw | .aborted => 0

def Config.rank (s : Config ε α ξ) : Nat :=
  s.pc.rank + 2 * s.promise.toList.length + s.dispatch.toList.length

theorem rank_wait {inExecutor : Option Bool} (h : s₁.wait inExecutor = some s₂) : s₂.rank < s₁.rank := by
  cases hpc : s₁.pc <;> simp only [Config.wait, hpc] at h
  case hasResult => split at h <;> cases h <;> simp [Config.rank, hpc, Pc.rank]
  case currentThreadInExecutor =>
    split at h
    case isTrue  => split at h <;> cases h <;> simp [Config.rank, hpc, Pc.rank]
    case isFalse => cases h; simp [Config.rank, hpc, Pc.rank]
  case setContinuation =>
    split at h <;> cases h <;> simp [Config.rank, hpc, Pc.rank]
    omega
  case acquire =>
    split at h <;> cases h
    simp [Config.rank, hpc, Pc.rank]
  case returned | threw | aborted => contradiction
  all_goals
    cases h
    simp [Config.rank, hpc, Pc.rank]

theorem rank_step (h : m.system.step s₁ a = some s₂) : s₂.rank < s₁.rank := by
  cases a <;> simp only [Setup.system] at h
  case wait   => exact rank_wait h
  case fulfil =>
    simp only [Config.fulfil] at h
    split at h <;> try contradiction
    case h_1 hp =>
      split at h <;> cases h
      case h_1 =>
        simp [Config.rank, hp]
        omega
      case h_2 => simp [Config.rank, hp]
  case schedule =>
    have continuation {b} (hd : s₁.dispatch = some b) (h : s₁.continuation = some s₂) : s₂.rank < s₁.rank := by
      simp only [Config.continuation] at h
      split at h <;> cases h
      simp [Config.rank, hd]
    simp only [Config.schedule] at h
    split at h <;> try contradiction
    case h_1 hd =>
    split at h
    case isTrue  => exact continuation hd h
    case isFalse =>
      obtain ⟨_, _, h⟩ := Option.bind_eq_some_iff.mp h
      exact continuation hd h

theorem steps_le (h : m.system.Steps k s) : k ≤ 10 := by
  have := h.length_le (μ := Config.rank) fun _ e => rank_step e
  have hi : m.init.rank ≤ 10 := by
    cases hm : m.source
    case localState          => simp [Setup.init, hm, Config.rank, Pc.rank]
    case sharedState early _ => cases early <;> simp [Setup.init, hm, Config.rank, Pc.rank]
  simp only [Setup.system] at this
  omega

theorem quiescent_of_returned (hpc : s.pc = .returned) (hp : s.promise = none) (hd : s.dispatch = none) :
    m.system.Quiescent s := by
  intro a
  cases a <;> simp [Setup.system, Config.wait, Config.fulfil, Config.schedule, hpc, hp, hd]

def intSetup (executor : Option Nat) : Setup Unit Nat Nat where
  source          := .sharedState (.fulfilled (.ok 7)) false executor
  force_scheduled := false

-- `Wait` with its promise fulfilled before the first step, or when it is blocked.

def promptRun : List Action :=
  [.fulfil, .wait none]

def lateRun : List Action :=
  List.replicate 5 (.wait (some false)) ++ [.fulfil, .schedule false] ++ List.replicate 2 (.wait (some false))

theorem exists_returned (executor : Option Nat) (as : List Action) (e : Option Nat)
    (h : ((intSetup executor).system.run (intSetup executor).system.init as).any fun s =>
      s.pc = .returned ∧ s.promise.isNone ∧ s.dispatch.isNone ∧ s.executor = e) :
    ∃ s, (intSetup executor).system.Reachable s ∧ (intSetup executor).system.Quiescent s ∧ s.pc = .returned ∧
      s.executor = e := by
  obtain ⟨s, hr, hs⟩ := System.exists_reachable _ h
  simp only [Bool.decide_and, Bool.and_eq_true, decide_eq_true_eq, Option.isNone_iff_eq_none] at hs
  obtain ⟨hpc, hp, hd, he⟩ := hs
  exact ⟨s, hr, quiescent_of_returned hpc hp hd, hpc, he⟩

theorem wait_unchanged_without_executor :
    ∃ s, s.pc = .returned ∧ Unchanged (intSetup none) s := by
  obtain ⟨s, hr, hq, _⟩ := exists_returned none lateRun none (by decide)
  exact ⟨s, (wait_unchanged_iff hr hq).mpr (.inr ⟨rfl, rfl⟩)⟩

-- Two runs of `Wait` on a future with an executor, which differ only in when the promise is fulfilled.
theorem wait_loses_executor :
    ∃ s s', (intSetup (some 1)).system.Reachable s ∧ (intSetup (some 1)).system.Reachable s' ∧
      (s.pc = .returned ∧ s.executor = some 1) ∧ (s'.pc = .returned ∧ s'.executor = none) ∧
      ¬ Unchanged (intSetup (some 1)) s' := by
  obtain ⟨s, hr, _, hpc, he⟩ := exists_returned (some 1) promptRun (some 1) (by decide)
  obtain ⟨s', hr', _, hpc', he'⟩ := exists_returned (some 1) lateRun none (by decide)
  exact ⟨s, s', hr, hr', ⟨hpc, he⟩, ⟨hpc', he'⟩, fun h => by simpa [he', intSetup, Fut.executor] using h.executor⟩

end Wait
end AsyncSimple
