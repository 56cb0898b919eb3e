import AsyncSimple.Sync.Sources

open Transition

namespace AsyncSimple

namespace TryObject

variable {ε α : Type} {o other : TryObject ε α} {move : α → Option α × α} {u : Union ε α} {l : Ledger}

-- What the move operations do to `inner_type_`, whether they throw or not.

@[simp]
theorem moveUnion_inner_type_ : (other.moveUnion move u l).2.1.inner_type_ = other.inner_type_ := by
  rw [moveUnion]
  split
  case h_1 => split <;> rfl
  all_goals rfl

theorem moveUnion_eq_none : (other.moveUnion move u l).1 = none ↔ other.throws move = true := by
  obtain ⟨i, w⟩ := other
  cases i <;> cases w <;> simp only [moveUnion, throws, reduceCtorEq, Bool.false_eq_true]
  case kValue.value_ v => cases hm : (move v).1 <;> simp

@[simp]
theorem moveConstruct_inner_type_ : (other.moveConstruct move l).2.1.inner_type_ = other.inner_type_ := by
  simp [moveConstruct]

theorem moveConstruct_eq_none : (other.moveConstruct move l).1 = none ↔ other.throws move = true := by
  simp [moveConstruct, moveUnion_eq_none]

theorem inner_type_of_moveConstruct (h : (other.moveConstruct move l).1 = some o) :
    o.inner_type_ = other.inner_type_ := by
  simp only [moveConstruct, Option.map_eq_some_iff] at h
  obtain ⟨_, -, rfl⟩ := h
  rfl

@[simp]
theorem moveAssign_inner_type_ : (o.moveAssign other move l).1.inner_type_ = other.inner_type_ :=
  rfl

@[simp]
theorem moveAssign_other_inner_type_ : (o.moveAssign other move l).2.1.inner_type_ = other.inner_type_ := by
  simp [moveAssign]

theorem available_of_throws (h : o.throws move = true) : o.available = true := by
  rw [throws] at h
  split at h
  case h_1 ht _ => simp [available, ht]
  case h_2      => contradiction

end TryObject

namespace Sources

variable {ε α κ ξ γ : Type} {s s₁ s₂ : Config ε α κ ξ γ} {f g : Future ε α ξ} {l : Ledger}

-- There is at most one source of the result.
def Future.Single (f : Future ε α ξ) : Prop :=
  ¬(f.shared_state_.isSome ∧ f.local_state_.hasResult)

namespace Future

theorem Single.of_none (h : f.shared_state_ = none) : f.Single := by
  simp [Single, h]

theorem Single.of_empty (h : f.local_state_.hasResult = false) : f.Single := by
  simp [Single, h]

theorem Single.congr (h : f.Single) (hs : g.shared_state_ = f.shared_state_)
    (hl : g.local_state_.try_value_.inner_type_ = f.local_state_.try_value_.inner_type_) : g.Single := by
  simpa only [Single, hs, LocalState.hasResult, TryObject.available, hl] using h

theorem moveConstruct_single {move : α → Option α × α} (h : f.Single)
    (hg : (f.moveConstruct move l).1 = some g) : g.Single := by
  simp only [moveConstruct, Option.map_eq_some_iff] at hg
  obtain ⟨t, ht, rfl⟩ := hg
  exact h.congr rfl (TryObject.inner_type_of_moveConstruct ht)

-- The tag of the target is that of the other future, unless the swap throws at once.
theorem swap_inner_type_ (this other : TryObject ε α) (m : SwapMoves α) (l : Ledger) :
    (swap this other m l).this.inner_type_ =
      if this.throws m.save then this.inner_type_ else other.inner_type_ := by
  rw [swap]
  split
  case h_1 hn => simp [TryObject.moveConstruct_eq_none.mp hn]
  case h_2 hn =>
    have ht : this.throws m.save = false := Bool.eq_false_iff.mpr fun h => by
      simp [TryObject.moveConstruct_eq_none.mpr h] at hn
    split <;> simp [ht]

theorem moveAssign_single_iff {m : SwapMoves α} (h : g.Single) :
    (f.moveAssign g m l).1.Single ↔
      ¬(f.local_state_.try_value_.throws m.save = true ∧ g.shared_state_.isSome) := by
  have hw := swap_inner_type_ f.local_state_.try_value_ g.local_state_.try_value_ m l
  cases ht : f.local_state_.try_value_.throws m.save
  case false =>
    simp only [Bool.false_eq_true, false_and, not_false_iff, iff_true]
    simp only [ht, Bool.false_eq_true, if_false] at hw
    exact h.congr rfl hw
  case true =>
    have ha : (f.moveAssign g m l).1.local_state_.hasResult = true := by
      have := TryObject.available_of_throws ht
      simpa [moveAssign, LocalState.hasResult, TryObject.available, hw, ht] using this
    have hs : (f.moveAssign g m l).1.shared_state_ = g.shared_state_ := rfl
    simp [Single, ha, hs]

theorem moveAssign_other_single {m : SwapMoves α} : (f.moveAssign g m l).2.1.Single :=
  .of_none rfl

end Future
-- Every future has at most one source, and one that a thread waits for has no local result.
def Config.Single (s : Config ε α κ ξ γ) : Prop :=
  ∀ h ∈ s.handles, h.toFuture.Single ∧ (h.waiting = true → h.local_state_.hasResult = false)

namespace Config.Single

variable {h h' : Handle ε α ξ} {i : Nat}

theorem of_getElem? (k : s.Single) (hi : s.handles[i]? = some h) :
    h.toFuture.Single ∧ (h.waiting = true → h.local_state_.hasResult = false) :=
  k h (List.mem_of_getElem? hi)

theorem handle (k : s.Single) (hi : s.handle i = some h) : h.toFuture.Single := by
  simp only [Config.handle, Option.bind_eq_some_iff] at hi
  obtain ⟨x, hx, hi⟩ := hi
  split at hi <;> cases hi
  exact (k.of_getElem? hx).1

theorem add (k : s.Single) (hf : f.Single) : (s.add f).Single := by
  intro x hx
  cases List.mem_append.mp hx
  case inl hx => exact k x hx
  case inr hx =>
    cases List.mem_singleton.mp hx
    exact ⟨hf, nofun⟩

theorem set (k : s.Single) (hf : f.Single) : (s.set i f).Single := by
  intro x hx
  cases List.mem_or_eq_of_mem_set hx
  case inl hx => exact k x hx
  case inr hx =>
    cases hx
    exact ⟨hf, nofun⟩

theorem elim {o : Option (Future ε α ξ)} (k : s.Single) (ho : ∀ f, o = some f → f.Single) :
    (o.elim s s.add).Single := by
  cases o
  case none   => exact k
  case some f => exact k.add (ho f rfl)

theorem ofTry {t : TryObject ε α} {move : α → Option α × α} (k : s.Single) : (s.ofTry t move).Single := by
  refine elim k fun f hf => ?_
  simp only [Future.ofTry, Option.map_eq_some_iff] at hf
  obtain ⟨_, -, rfl⟩ := hf
  exact .of_none rfl

theorem move {move : α → Option α × α} (k : s.Single) (hf : f.Single) : (s.move i f move).Single :=
  elim (k.set (.of_none rfl)) fun _ => Future.moveConstruct_single hf

theorem setExecutor {executor : Option ξ} (k : s.Single) (hf : f.Single) : (s.setExecutor i f executor).Single := by
  rw [Config.setExecutor]
  split
  case h_1 => exact k
  case h_2 => exact k.set (hf.congr rfl rfl)

theorem exceptional {e : ε} (k : s.Single) : (s.exceptional e).Single :=
  add k (.of_none rfl)

theorem returned {r : Returned ε α} {executor : Option ξ} {move : α → Option α × α} (k : s.Single) :
    (s.returned r executor move).Single := by
  cases r
  case value t =>
    have k' : (s.ofTry t move).Single := k.ofTry
    simp only [Config.returned]
    cases hn : (s.ofTry t move).handle s.handles.length
    case none   => exact k'
    case some f => exact k'.setExecutor (k'.handle hn)
  case future j thrown =>
    simp only [Config.returned]
    cases hj : s.handle j
    case none   => exact k
    case some f =>
      have k' : (s.move j f.toFuture move).Single := k.move (k.handle hj)
      simp only [Option.elim]
      cases hn : (s.move j f.toFuture move).handle s.handles.length
      case none   => exact k'.exceptional
      case some f =>
        simp only
        split
        case isTrue  => exact k'.setExecutor (k'.handle hn)
        case isFalse => exact k'
  case throws e => exact k.exceptional

theorem source_own (hf : f.source = .own) : f.shared_state_ = none := by
  rw [Future.source] at hf
  split at hf
  case h_1 => contradiction
  case h_2 => assumption

theorem thenImpl {this : Nat} {func : κ} {left : TryObject ε α} {r : Returned ε α} {move : α → Option α × α}
    (k : s₁.Single) (hs : s₁.thenImpl this func left r move = some s₂) : s₂.Single := by
  simp only [Config.thenImpl, Option.map_eq_some_iff] at hs
  obtain ⟨h, hh, rfl⟩ := hs
  split
  case isFalse => exact k
  case isTrue  =>
    split
    case h_1 hs =>
      refine returned (k.set (.of_none ?_))
      exact source_own hs
    case h_2 a hs =>
      split
      case h_1 => exact add k (.of_empty rfl)
      case h_2 => exact k

theorem wait {this : Nat} {func : κ} {inExecutor : Bool} (k : s₁.Single)
    (hs : s₁.wait this func inExecutor = some s₂) : s₂.Single := by
  simp only [Config.wait, Option.bind_eq_some_iff] at hs
  obtain ⟨h, hh, hs⟩ := hs
  split at hs
  case isFalse => cases hs; exact k
  case isTrue  =>
    obtain ⟨r, hr, hs⟩ := Option.bind_eq_some_iff.mp hs
    split at hs
    case isTrue     => cases hs; exact k
    case isFalse hn =>
      obtain ⟨a, ha, hs⟩ := Option.bind_eq_some_iff.mp hs
      split at hs
      case isTrue  => contradiction
      case isFalse =>
        split at hs <;> cases hs
        case h_2 => exact k
        case h_1 =>
          intro x hx
          cases List.mem_or_eq_of_mem_set hx
          case inl hx => exact k x hx
          case inr hx =>
            cases hx
            have hf := k.handle hh
            refine ⟨hf, fun _ => ?_⟩
            cases hl : h.local_state_.hasResult
            case false => rfl
            case true  => simp_all [Future.hasResult]

theorem wake {this : Nat} {moves : SwapMoves α} (k : s₁.Single) (hs : s₁.wake this moves = some s₂) : s₂.Single := by
  simp only [Config.wake, Option.bind_eq_some_iff] at hs
  obtain ⟨h, hh, hs⟩ := hs
  split at hs <;> cases hs
  case isTrue hw =>
    refine k.set (Future.moveAssign_single_iff (.of_empty rfl) |>.mpr fun ht => ?_)
    -- The local state is empty, so that no T is moved.
    have hl := (k.of_getElem? hh).2 hw
    exact Bool.false_ne_true (hl.symm.trans (TryObject.available_of_throws ht.1))

theorem setContinuation {this : Nat} {func : κ} {left : TryObject ε α} (k : s₁.Single)
    (hs : s₁.setContinuation this func left = some s₂) : s₂.Single := by
  simp only [Config.setContinuation, Option.bind_eq_some_iff] at hs
  obtain ⟨h, hh, hs⟩ := hs
  split at hs
  case isFalse => contradiction
  case isTrue  =>
    split at hs
    case h_1    => split at hs <;> cases hs <;> exact k
    case h_2 hv =>
      cases hs
      refine k.set (.of_none ?_)
      exact source_own hv

theorem via {this : Nat} {executor : Option ξ} {move : α → Option α × α} (k : s₁.Single)
    (hs : s₁.via this executor move = some s₂) : s₂.Single := by
  simp only [Config.via, Option.bind_eq_some_iff, Option.map_eq_some_iff] at hs
  obtain ⟨f, hf, g, hg, rfl⟩ := hs
  have k' : (s₁.setExecutor this f.toFuture executor).Single := k.setExecutor (k.handle hf)
  exact k'.move (k'.handle hg)

-- What an assignment between different futures does to the invariant.
theorem moveAssign_iff {this other : Nat} {moves : SwapMoves α} (hn : this ≠ other)
    (hh : s₁.handle this = some h) (hh' : s₁.handle other = some h') (k : s₁.Single) :
    (Action.moveAssign this other moves : Action ε α κ ξ γ).throwsBetween s₁ = false ↔
      (h.toFuture.moveAssign h'.toFuture moves s₁.ledger).1.Single := by
  rw [Future.moveAssign_single_iff (k.handle hh')]
  simp [Action.throwsBetween, hh, hh', hn]

theorem moveAssign {this other : Nat} {moves : SwapMoves α} (k : s₁.Single)
    (hs : s₁.moveAssign this other moves = some s₂)
    (ht : (Action.moveAssign this other moves : Action ε α κ ξ γ).throwsBetween s₁ = false) : s₂.Single := by
  simp only [Config.moveAssign, Option.bind_eq_some_iff, Option.map_eq_some_iff] at hs
  obtain ⟨f, hf, g, hg, rfl⟩ := hs
  split
  case isTrue     => exact k
  case isFalse hn => exact set (set k ((moveAssign_iff hn hf hg k).mp ht)) Future.moveAssign_other_single

theorem not_single {this other : Nat} {moves : SwapMoves α} (k : s₁.Single)
    (hs : s₁.moveAssign this other moves = some s₂)
    (ht : (Action.moveAssign this other moves : Action ε α κ ξ γ).throwsBetween s₁ = true) :
    ∃ h ∈ s₂.handles, ¬ h.toFuture.Single := by
  simp only [Config.moveAssign, Option.bind_eq_some_iff, Option.map_eq_some_iff] at hs
  obtain ⟨f, hf, g, hg, rfl⟩ := hs
  have hn : this ≠ other := by
    intro hn
    simp [Action.throwsBetween, hn] at ht
  have hm : ¬ (f.toFuture.moveAssign g.toFuture moves s₁.ledger).1.Single := fun hm => by
    simp [(moveAssign_iff hn hf hg k).mpr hm] at ht
  refine ⟨{ toFuture := (f.toFuture.moveAssign g.toFuture moves s₁.ledger).1, waiting := false }, ?_, hm⟩
  refine List.mem_of_getElem? (i := this) ?_
  simp only [Config.handle, Option.bind_eq_some_iff] at hf
  obtain ⟨x, hx, -⟩ := hf
  simp [if_neg hn, Config.setLedger, Config.set, hn.symm, (List.getElem?_eq_some_iff.mp hx).1]

theorem step {act : Action ε α κ ξ γ} (k : s₁.Single) (hs : step s₁ act = some s₂)
    (ht : act.throwsBetween s₁ = false) : s₂.Single := by
  cases act <;> simp only [Sources.step, Option.some.injEq, Option.map_eq_some_iff] at hs
  case ofState         => exact hs ▸ k.add (.of_empty rfl)
  case ofTry           => exact hs ▸ k.ofTry
  case move            => obtain ⟨f, hf, rfl⟩ := hs; exact k.move (k.handle hf)
  case moveAssign      => exact k.moveAssign hs ht
  case via             => exact k.via hs
  case wait            => exact k.wait hs
  case wake            => exact k.wake hs
  case setContinuation => exact k.setContinuation hs
  case thenImpl        => exact k.thenImpl hs
  case setState        => cases hs; exact k

theorem step_iff {act : Action ε α κ ξ γ} (k : s₁.Single) (hs : Sources.step s₁ act = some s₂) :
    (∀ h ∈ s₂.handles, h.toFuture.Single) ↔ act.throwsBetween s₁ = false := by
  constructor
  · intro hh
    cases act
    case moveAssign =>
      by_contra ht
      obtain ⟨h, hm, hn⟩ := k.not_single hs (Bool.eq_true_of_not_eq_false ht)
      exact hn (hh h hm)
    all_goals rfl
  · intro ht h hh
    exact (k.step hs ht h hh).1

theorem reachable
    (hr : (system.restrict fun s (act : Action ε α κ ξ γ) => act.throwsBetween s = false).Reachable s) : s.Single := by
  refine hr.invariant (I := Config.Single) (fun _ hm => absurd hm List.not_mem_nil) fun k hs => ?_
  obtain ⟨ht, hs⟩ := System.restrict_step.mp hs
  exact k.step hs ht

end Config.Single

-- Whether the result is there, where the functions look that look at `shared_state_` first.
def Future.ready (f : Future ε α ξ) (states : Nat → FutureState ε α κ ξ γ) : Bool :=
  match f.source with
  | .shared a => (states a).hasResult
  | .own      => f.local_state_.hasResult

-- On a valid future with a single source, the functions that look at the local `Try` first speak about
-- the same result.
theorem Future.Single.speak (h : f.Single) (hv : f.valid = true) (states : Nat → FutureState ε α κ ξ γ) :
    f.hasResult states = some (f.ready states) ∧
    f.getTry states = some (if f.ready states then .ok f.source else .error (.logicError "Future is not ready")) := by
  have hr : f.hasResult states = some (f.ready states) := by
    cases hs : f.shared_state_
    case none   =>
      have hl : f.local_state_.hasResult = true := by simpa [Future.valid, hs] using hv
      simp [Future.hasResult, Future.ready, Future.source, hs, hl]
    case some a =>
      have hl : f.local_state_.hasResult = false := by simpa [Single, hs] using h
      simp [Future.hasResult, Future.ready, Future.source, hs, hl]
  exact ⟨hr, by simp [Future.getTry, hv, hr]⟩

-- In each run without such an assignment, no future has two sources of its result, and the functions
-- agree on the one that it has. The first such assignment makes a future that has two.
theorem single_source
    (hr : (system.restrict fun s (act : Action ε α κ ξ γ) => act.throwsBetween s = false).Reachable s) :
    (∀ h ∈ s.handles, h.toFuture.Single ∧ (h.valid = true → ∀ states : Nat → FutureState ε α κ ξ γ,
      h.hasResult states = some (h.ready states) ∧
      h.getTry states =
        some (if h.ready states then .ok h.source else .error (.logicError "Future is not ready")))) ∧
    ∀ act s', system.step s act = some s' →
      ((∀ h ∈ s'.handles, h.toFuture.Single) ↔ act.throwsBetween s = false) := by
  have k := Config.Single.reachable hr
  exact ⟨fun h hh => ⟨(k h hh).1, fun hv states => (k h hh).1.speak hv states⟩, fun act s' hs => k.step_iff hs⟩

def moves (v : Nat) : Option Nat × Nat :=
  (some v, 0)

def throws (v : Nat) : Option Nat × Nat :=
  (none, v)

def ready (v : Nat) : TryObject Nat Nat where
  inner_type_ := .kValue
  union       := .value_ 0 v

-- A ready future and one with a shared state are exchanged.
def exchangeRun : List (Action Nat Nat Unit Unit Empty) :=
  [.ofTry (ready 7) moves, .ofState (some 0), .move 0 throws, .move 0 moves, .moveAssign 1 2 ⟨throws, moves, moves⟩,
    .via 0 none moves, .moveAssign 2 1 ⟨moves, moves, moves⟩]

theorem single_source_exchanged :
    ∃ s : Config Nat Nat Unit Unit Empty, s.handles.length = 4 ∧ ∀ h ∈ s.handles, h.toFuture.Single := by
  obtain ⟨s, hr, hs⟩ := System.exists_reachable
    (S := system.restrict fun s (act : Action Nat Nat Unit Unit Empty) => act.throwsBetween s = false) exchangeRun
    (p := fun s => s.handles.length = 4) (by decide)
  exact ⟨s, decide_eq_true_eq.mp hs, fun h hh => ((single_source hr).1 h hh).1⟩

-- The move of the value that is to be saved throws. The future says that it has a result, although its
-- shared state has none, which is what `GetTry` returns.
theorem two_sources :
    ∃ (s : Config Nat Nat Unit Unit Empty) (h : Handle Nat Nat Unit),
      system.run system.init
        [.ofTry (ready 7) moves, .ofState (some 0), .moveAssign 0 1 ⟨throws, moves, moves⟩] = some s ∧
      s.handles[0]? = some h ∧ h.shared_state_ = some 0 ∧ h.local_state_.hasResult = true ∧
      h.hasResult s.states = some true ∧ h.getTry s.states = some (.ok (.shared 0)) ∧
      (s.states 0).hasResult = false :=
  ⟨_, _, rfl, rfl, rfl, rfl, rfl, rfl, rfl⟩

end Sources
end AsyncSimple
