import AsyncSimple.Sync.Theorems.Chain

open Transition

namespace AsyncSimple

variable {n : Nat} {ε α ξ : Type}

def Fut.executor : Fut ε α ξ → Option ξ
  | localState _ executor    => executor
  | sharedState _ _ executor => executor

def Fut.isLocal : Fut ε α ξ → Bool
  | localState ..  => true
  | sharedState .. => false

namespace Chain

-- `GetExecutor` of the last future.
def Config.executor (s : Config n ε α ξ) : Option ξ :=
  match s.localState with
  | some l => l.executor_
  | none   => (s.state (.future s.attached)).executor_

namespace Setup

-- Whether the future that `ThenImpl` returns for callback `j` has a local state again, if it is called
-- on a future that has one.
def staysLocal (m : Setup n ε α ξ) (j : Fin n) : Prop :=
  match (m.callbacks j).func with
  | .value _ | .void _ => True
  | .future f          => ∀ fut, f (m.value j.castSucc) = .ok fut → fut.isLocal

def isLocal (m : Setup n ε α ξ) (p : Nat) : Prop :=
  m.initial.isLocal ∧ ∀ j : Fin n, j.val < p → m.staysLocal j

-- A callback that returns a future returns one without an executor or with that of the chain, and it
-- throws only if the chain has no executor.
def propagates (m : Setup n ε α ξ) (j : Fin n) : Prop :=
  match (m.callbacks j).func with
  | .value _ | .void _ => True
  | .future f          =>
    match f (m.value j.castSucc) with
    | .ok fut  => fut.executor = none ∨ fut.executor = m.initial.executor
    | .error _ => m.initial.executor = none

-- This is asked of the first `p` callbacks that are attached to a future with a local state.
def Propagates (m : Setup n ε α ξ) (p : Nat) : Prop :=
  ∀ j : Fin n, j.val < p → m.isLocal j → m.propagates j

-- The chain with this source.
def withSource (m : Setup n ε α ξ) (source : Fut ε α ξ) : Setup n ε α ξ :=
  { m with initial := source }

end Setup

-- There is no call of `Via` along the chain.
def Plain (_ : Config n ε α ξ) (a : Action n ξ) : Prop :=
  match a with
  | .attach via => via.isNone
  | _           => True

instance (s : Config n ε α ξ) : ∀ a, Decidable (Plain s a)
  | .attach via => inferInstanceAs (Decidable (via.isNone = true))
  | .fulfil _   => isTrue trivial
  | .step ..    => isTrue trivial

-- What no step other than `ThenTry` and `ThenValue` changes.
structure Kept (s₁ s₂ : Config n ε α ξ) : Prop where
  attached   : s₂.attached = s₁.attached
  localState : s₂.localState = s₁.localState
  executor   : ∀ p, (s₂.state (.future p)).executor_ = (s₁.state (.future p)).executor_

-- The executor of the last future of a chain, along its runs.
structure Bound (m : Setup n ε α ξ) (s : Config n ε α ξ) : Prop where
  inv      : Inv m s
  locals   : s.localState.isSome ↔ m.isLocal s.attached
  executor : m.Propagates s.attached → s.executor = m.initial.executor

variable {m : Setup n ε α ξ} {s s₁ s₂ s₃ : Config n ε α ξ} {j : Fin n} {x : Slot n}

namespace Setup

theorem isLocal_succ : m.isLocal (j.val + 1) ↔ m.isLocal j ∧ m.staysLocal j := by
  constructor
  · intro h
    exact ⟨⟨h.left, fun i hi => h.right i (by omega)⟩, h.right j (by omega)⟩
  · rintro ⟨h, hj⟩
    refine ⟨h.left, fun i hi => ?_⟩
    rcases Nat.lt_or_eq_of_le (Nat.le_of_lt_succ hi) with hi | hi
    · exact h.right i hi
    · exact Fin.ext hi ▸ hj

theorem propagates_succ : m.Propagates (j.val + 1) ↔ m.Propagates j ∧ (m.isLocal j → m.propagates j) := by
  constructor
  · intro h
    exact ⟨fun i hi => h i (by omega), h j (by omega)⟩
  · rintro ⟨h, hj⟩ i hi
    rcases Nat.lt_or_eq_of_le (Nat.le_of_lt_succ hi) with hi | hi
    · exact h i hi
    · exact Fin.ext hi ▸ hj

end Setup

namespace Kept

theorem trans (h₁ : Kept s₁ s₂) (h₂ : Kept s₂ s₃) : Kept s₁ s₃ :=
  ⟨h₂.attached.trans h₁.attached, h₂.localState.trans h₁.localState,
    fun p => (h₂.executor p).trans (h₁.executor p)⟩

theorem goto : Kept s (s.goto x pc) := ⟨rfl, rfl, fun _ => rfl⟩

theorem setState {fs : FutureState ε α (Cont n) ξ Empty} (h : fs.executor_ = (s.state x).executor_) :
    Kept s (s.setState x fs) := by
  refine ⟨rfl, rfl, fun p => ?_⟩
  by_cases hp : .future p = x
  · simp [Config.setState, hp, h]
  · simp [Config.setState, hp]

theorem share : Kept s (s.share (.returned j) fate early e) := by
  cases early <;> exact ⟨rfl, rfl, fun p => by simp [Config.share, Config.setState]⟩

theorem setResult (h : s₁.setResult x t = some s₂) : Kept s₁ s₂ := by
  simp only [Config.setResult] at h
  split at h <;> cases h
  case h_1 hs => exact (setState (FutureState.executor_setResult hs)).trans goto
  case h_2 hs => exact setState (FutureState.executor_setResult hs)

theorem setContinuation (h : s₁.setContinuation x c = some s₂) : Kept s₁ s₂ := by
  simp only [Config.setContinuation] at h
  split at h <;> cases h
  case h_1 hs => exact (setState (FutureState.executor_setContinuation hs)).trans goto
  case h_2 hs => exact setState (FutureState.executor_setContinuation hs)

theorem fulfil (h : Setup.fulfil s₁ x = some s₂) : Kept s₁ s₂ := by
  simp only [Setup.fulfil] at h
  split at h
  case h_2 => contradiction
  case h_1 =>
    refine Kept.trans ?_ (setResult h)
    exact ⟨rfl, rfl, fun _ => rfl⟩

theorem callContinuation (h : m.callContinuation s₁ x = some s₂) : Kept s₁ s₂ := by
  have call {c : Callback ε α ξ} {j t} : Kept s₁ (s₁.call c j t) := ⟨rfl, rfl, fun _ => rfl⟩
  simp only [Setup.callContinuation] at h
  split at h
  case h_1 => contradiction
  case h_2 =>
    split at h
    case h_1 => cases h; exact call.trans goto
    case h_2 => cases h; exact call.trans goto
    case h_3 =>
      split at h <;> cases h
      case h_1 => exact call.trans goto
      case h_2 => exact (call.trans share).trans goto
      case h_3 => exact call.trans goto
  case h_3 =>
    cases h
    exact goto

theorem stepSlot {inExecutor accept : Bool} (h : m.stepSlot s₁ x inExecutor accept = some s₂) : Kept s₁ s₂ := by
  simp only [Setup.stepSlot] at h
  split at h
  case h_1 => split at h <;> cases h <;> exact goto
  case h_2 =>
    split at h
    case h_1 => contradiction
    case h_2 => split at h <;> cases h <;> exact goto
  case h_3 =>
    cases h
    exact goto
  case h_4 => exact callContinuation h
  case h_5 => exact goto.trans (setResult h)
  case h_6 => exact goto.trans (setContinuation h)
  all_goals contradiction

theorem executor_eq (h : Kept s₁ s₂) : s₂.executor = s₁.executor := by
  simp only [Config.executor, h.localState, h.attached]
  split
  case h_1 => rfl
  case h_2 => exact h.executor _

end Kept

-- What `ThenImpl` does for the next callback.
inductive Attached (m : Setup n ε α ξ) (s₁ : Config n ε α ξ) (j : Fin n) (s₂ : Config n ε α ξ) : Prop
  | thenLocal  : (s₁.localState = some l) → (s₂ = m.thenLocal s₁ j l) → Attached m s₁ j s₂
  | thenShared : (s₁.localState = none) → (s₂ = s₁.attachShared j) → Attached m s₁ j s₂

theorem Attached.of_step {v : Option (Option ξ)} (i : Inv m s₁) (h : m.attach s₁ v = some s₂) (hv : v.isNone) :
    ∃ j : Fin n, s₁.attached = j.castSucc ∧ Attached m s₁ j s₂ := by
  cases v
  case some => contradiction
  case none =>
    simp only [Setup.attach, Config.via] at h
    split at h
    case isFalse     => contradiction
    case isTrue hlt  =>
      refine ⟨⟨s₁.attached, hlt⟩, rfl, ?_⟩
      split at h
      case h_1 l hl => exact .thenLocal hl (Option.some.inj h).symm
      case h_2 hl   =>
        rw [thenShared_eq ((i.shared hl).free _ (Nat.le_refl _))] at h
        exact .thenShared hl (Option.some.inj h).symm

theorem exists_attach (i : Inv m s) (ha : s.attached = j.castSucc) : ∃ s', m.attach s none = some s' := by
  have hlt : s.attached < n := by simp [ha]
  simp only [Setup.attach, hlt, dite_true, Config.via]
  cases hl : s.localState
  case some l => exact ⟨_, rfl⟩
  case none   => exact ⟨_, thenShared_eq ((i.shared hl).free _ (Nat.le_refl _))⟩

-- The last future after `ThenImpl` on a future with a local state.
theorem thenLocal_future {l : LocalState ε α ξ} {f} (hf : (m.callbacks j).func = .future f) :
    (m.thenLocal s j l).attached = j.succ ∧
    ((m.thenLocal s j l).localState.isSome ↔ ∀ fut, f l.try_value_ = .ok fut → fut.isLocal) ∧
    (m.thenLocal s j l).executor =
      match f l.try_value_ with
      | .ok fut  => fut.executor.or l.executor_
      | .error _ => none := by
  simp only [Setup.thenLocal, hf]
  cases hr : f l.try_value_ <;> simp only
  case error => simp [Config.executor]
  case ok fut =>
    cases fut
    case localState  => exact ⟨rfl, by simp [Config.adopt, Fut.isLocal], rfl⟩
    case sharedState early _ =>
      refine ⟨share_attached, by simp [Config.adopt, Fut.isLocal], ?_⟩
      cases early <;> simp [Config.executor, Config.adopt, Config.share, Config.setState, Fut.executor,
        FutureState.setExecutor]

theorem thenLocal_value {l : LocalState ε α ξ} (hf : ∀ f, (m.callbacks j).func ≠ .future f) :
    (m.thenLocal s j l).attached = j.succ ∧ (m.thenLocal s j l).localState.isSome ∧
    (m.thenLocal s j l).executor = l.executor_ := by
  cases h : (m.callbacks j).func
  case future f       => exact absurd h (hf f)
  case value | void => simp [Setup.thenLocal, h, Config.executor]

theorem Attached.attached (h : Attached m s₁ j s₂) : s₂.attached = j.succ := by
  cases h
  case thenShared h => exact h ▸ rfl
  case thenLocal h  =>
    subst h
    cases hf : (m.callbacks j).func
    case future => exact (thenLocal_future hf).left
    all_goals exact (thenLocal_value fun _ => by simp [hf]).left

-- Whether the executor reaches the next future is a matter of the callback alone.
theorem Attached.executor_eq_iff (b : Bound m s₁) (ha : s₁.attached = j.castSucc) (h : Attached m s₁ j s₂)
    (hl : m.isLocal j) (he : s₁.executor = m.initial.executor) :
    s₂.executor = m.initial.executor ↔ m.propagates j := by
  have hls : s₁.localState.isSome := b.locals.mpr (by rwa [ha])
  cases h
  case thenShared hn _ => simp [hn] at hls
  case thenLocal l hs h =>
    subst h
    have hv : l.try_value_ = m.value j.castSucc := ha ▸ (b.inv.locals l hs).value
    have he : l.executor_ = m.initial.executor := by simpa [Config.executor, hs] using he
    cases hf : (m.callbacks j).func <;> simp only [Setup.propagates, hf, iff_true]
    case future f =>
      rw [(thenLocal_future hf).right.right, hv, he]
      cases f (m.value j.castSucc) <;> simp only
      case error  => exact eq_comm
      case ok fut => cases hx : fut.executor <;> simp
    all_goals exact (thenLocal_value (fun _ => by simp [hf])).right.right.trans he

namespace Bound

theorem init : Bound m m.init := by
  refine ⟨.init, ?_, fun _ => ?_⟩
  · have h : m.init.attached = 0 := by
      cases hi : m.initial <;> simp [Setup.init, hi, Config.adopt]
    rw [h]
    cases hi : m.initial <;> simp [Setup.init, hi, Config.adopt, Setup.isLocal, Fut.isLocal]
  · cases hi : m.initial
    case localState           => simp [Config.executor, Setup.init, hi, Config.adopt, Fut.executor]
    case sharedState early _ =>
      cases early <;> simp [Config.executor, Setup.init, hi, Config.adopt, Fut.executor, Config.share,
        Config.setState, FutureState.setExecutor]

theorem kept (b : Bound m s₁) (i : Inv m s₂) (k : Kept s₁ s₂) : Bound m s₂ :=
  ⟨i, by rw [k.localState, k.attached]; exact b.locals, fun h => k.executor_eq.trans (b.executor (k.attached ▸ h))⟩

theorem attach (b : Bound m s₁) (i : Inv m s₂) (ha : s₁.attached = j.castSucc) (h : Attached m s₁ j s₂) :
    Bound m s₂ := by
  have hlocal : s₁.localState.isSome ↔ m.isLocal j := by
    have := b.locals
    rwa [ha] at this
  have hexec (hp : m.Propagates j) : s₁.executor = m.initial.executor := b.executor (by rwa [ha])
  have hnext := fun hl he => h.executor_eq_iff b ha hl he
  cases h
  case thenLocal l hs h =>
    subst h
    have hv : l.try_value_ = m.value j.castSucc := ha ▸ (b.inv.locals l hs).value
    have hlj : m.isLocal j := hlocal.mp (by simp [hs])
    have hatt : (m.thenLocal s₁ j l).attached = j.succ ∧
        ((m.thenLocal s₁ j l).localState.isSome ↔ m.staysLocal j) := by
      cases hf : (m.callbacks j).func <;> simp only [Setup.staysLocal, hf, iff_true]
      case future f =>
        have := thenLocal_future (s := s₁) (l := l) hf
        exact ⟨this.left, by rw [this.right.left, hv]⟩
      all_goals
        have := thenLocal_value (m := m) (s := s₁) (j := j) (l := l) fun _ => by simp [hf]
        exact ⟨this.left, this.right.left⟩
    refine ⟨i, ?_, fun hp => ?_⟩
    · rw [hatt.left, hatt.right, Fin.val_succ, Setup.isLocal_succ]
      exact ⟨fun h => ⟨hlj, h⟩, And.right⟩
    · rw [hatt.left, Fin.val_succ, Setup.propagates_succ] at hp
      exact (hnext hlj (hexec hp.left)).mpr (hp.right hlj)
  case thenShared hs h =>
    subst h
    have hlj : ¬ m.isLocal j := fun h => by simpa [hs] using hlocal.mpr h
    have hatt : (s₁.attachShared j).attached = j.succ := rfl
    have hls : (s₁.attachShared j).localState = none := hs
    refine ⟨i, ?_, fun hp => ?_⟩
    · rw [hatt, hls, Fin.val_succ, Setup.isLocal_succ]
      simp [hlj]
    · rw [hatt, Fin.val_succ, Setup.propagates_succ] at hp
      rw [← hexec hp.left]
      simp only [Config.executor, hls, hs, hatt, ha, Config.attachShared_state_succ]
      rfl

theorem step (b : Bound m s₁) (u : s₁.Unforced) (h : m.system.step s₁ a = some s₂) (hp : Plain s₁ a) :
    Bound m s₂ := by
  have i := b.inv.step u h
  cases a
  case attach v =>
    obtain ⟨j, ha, h⟩ := Attached.of_step b.inv h hp
    exact b.attach i ha h
  case fulfil => exact b.kept i (.fulfil h)
  case step   => exact b.kept i (.stepSlot h)

theorem reachable (h : (m.system.restrict Plain).Reachable s) : Bound m s := by
  suffices hs : Bound m s ∧ s.Unforced from hs.left
  have hi : Bound m m.init ∧ m.init.Unforced := ⟨init, .reachable .init⟩
  refine h.invariant (I := fun s => Bound m s ∧ s.Unforced) hi fun b e => ?_
  obtain ⟨hp, e⟩ := System.restrict_step.mp e
  exact ⟨b.left.step b.right e hp, b.right.step e⟩

end Bound

-- Callbacks can always be attached.
theorem exists_next (hr : (m.system.restrict Plain).Reachable s) (ha : s.attached = j.castSucc) :
    ∃ s', (m.system.restrict Plain).Reachable s' ∧ Attached m s j s' := by
  have i := (Bound.reachable hr).inv
  obtain ⟨s', h⟩ := exists_attach i ha
  have hp : Plain s (.attach none) := rfl
  refine ⟨s', hr.step (System.restrict_step.mpr ⟨hp, h⟩), ?_⟩
  obtain ⟨k, hk, h⟩ := Attached.of_step i h rfl
  exact Fin.castSucc_injective _ (hk.symm.trans ha) ▸ h

theorem exists_attached (m : Setup n ε α ξ) (p : Fin (n + 1)) :
    ∃ s, (m.system.restrict Plain).Reachable s ∧ s.attached = p := by
  induction p using Fin.induction
  case zero =>
    refine ⟨m.init, .init, ?_⟩
    cases hi : m.initial <;> simp [Setup.init, hi, Config.adopt]
  case succ ih =>
    obtain ⟨s, hr, ha⟩ := ih
    obtain ⟨s', hr', h⟩ := exists_next hr ha
    exact ⟨s', hr', h.attached⟩

-- The two paths of `ThenImpl` give the futures of a chain the same executors, whatever the runs, exactly
-- if all the callbacks that get to see a future with a local state propagate its executor.
theorem executors_agree_iff (m : Setup n ε α ξ) (fate : Fate ε α) (early : Bool) (executor : Option ξ) :
    (∀ s t, ((m.withSource (.localState fate.outcome executor)).system.restrict Plain).Reachable s →
      ((m.withSource (.sharedState fate early executor)).system.restrict Plain).Reachable t →
      s.attached = t.attached → s.executor = t.executor) ↔
    (m.withSource (.localState fate.outcome executor)).Propagates n := by
  have shared {t} (ht : ((m.withSource (.sharedState fate early executor)).system.restrict Plain).Reachable t) :
      t.executor = executor :=
    (Bound.reachable ht).executor fun _ _ hl => absurd hl.left (by simp [Setup.withSource, Fut.isLocal])
  constructor
  case mp =>
    intro h
    suffices hp : ∀ p : Fin (n + 1), (m.withSource (.localState fate.outcome executor)).Propagates p from hp (Fin.last n)
    intro p
    induction p using Fin.induction
    case zero      => exact fun _ hi => absurd hi (Nat.not_lt_zero _)
    case succ j ih =>
      refine Setup.propagates_succ.mpr ⟨ih, fun hl => ?_⟩
      obtain ⟨s, hr, ha⟩ := exists_attached (m.withSource (.localState fate.outcome executor)) j.castSucc
      obtain ⟨s', hr', hs⟩ := exists_next hr ha
      obtain ⟨t, ht, hta⟩ := exists_attached (m.withSource (.sharedState fate early executor)) j.succ
      have b := Bound.reachable hr
      refine (hs.executor_eq_iff b ha hl (b.executor (by rwa [ha]))).mp ?_
      exact (h s' t hr' ht (hs.attached.trans hta.symm)).trans (shared ht)
  case mpr =>
    intro h s t hs ht _
    rw [shared ht]
    exact (Bound.reachable hs).executor fun i _ hl => h i i.isLt hl

-- A callback that returns a future with an executor of its own, and then one that throws.
def divergingSetup (initial : Fut Unit Nat Nat) : Setup 2 Unit Nat Nat where
  unit      := 0
  initial   := initial
  callbacks := fun j =>
    .thenTry (.future fun _ => if j.val = 0 then .ok (.localState (.ok 1) (some 2)) else .error (.thrown ()))

def divergingSystem (initial : Fut Unit Nat Nat) : System (Config 2 Unit Nat Nat) (Action 2 Nat) :=
  (divergingSetup initial).system.restrict Plain

theorem exists_executor (initial : Fut Unit Nat Nat) (p : Nat) (executor : Option Nat)
    (h : ((divergingSystem initial).run (divergingSystem initial).init (List.replicate p (.attach none))).any
      fun s => s.attached.val = p ∧ s.executor = executor) :
    ∃ s, (divergingSystem initial).Reachable s ∧ s.attached.val = p ∧ s.executor = executor := by
  obtain ⟨s, hs, hp⟩ := System.exists_reachable _ h
  exact ⟨s, hs, of_decide_eq_true hp⟩

-- On the local path, the chain goes to the executor of the returned future first, and to none after that.
theorem executors_differ :
    ∃ s s' t t', (divergingSystem (.localState (.ok 0) (some 1))).Reachable s ∧
      (divergingSystem (.localState (.ok 0) (some 1))).Reachable s' ∧
      (divergingSystem (.sharedState (.fulfilled (.ok 0)) true (some 1))).Reachable t ∧
      (divergingSystem (.sharedState (.fulfilled (.ok 0)) true (some 1))).Reachable t' ∧
      (s.attached = t.attached ∧ s.executor = some 2 ∧ t.executor = some 1) ∧
      (s'.attached = t'.attached ∧ s'.executor = none ∧ t'.executor = some 1) := by
  obtain ⟨s, hs, ha, he⟩ := exists_executor (.localState (.ok 0) (some 1)) 1 (some 2) (by decide)
  obtain ⟨s', hs', ha', he'⟩ := exists_executor (.localState (.ok 0) (some 1)) 2 none (by decide)
  obtain ⟨t, ht, hb, hf⟩ := exists_executor (.sharedState (.fulfilled (.ok 0)) true (some 1)) 1 (some 1) (by decide)
  obtain ⟨t', ht', hb', hf'⟩ := exists_executor (.sharedState (.fulfilled (.ok 0)) true (some 1)) 2 (some 1) (by decide)
  exact ⟨s, s', t, t', hs, hs', ht, ht', ⟨Fin.ext (ha.trans hb.symm), he, hf⟩, ⟨Fin.ext (ha'.trans hb'.symm), he', hf'⟩⟩

end Chain
end AsyncSimple
