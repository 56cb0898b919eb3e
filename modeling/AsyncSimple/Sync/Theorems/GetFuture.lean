import AsyncSimple.Sync.Theorems.FutureState
import AsyncSimple.Sync.Theorems.SharedState

open Transition

namespace AsyncSimple
namespace Handles

variable {ε α κ ξ γ : Type}

-- A record of a history of handles: the states that `GetFuture` has returned a future of, and those that
-- `SetContinuation` has been called on through a future.
structure Ledger where
  futures : List Nat
  called  : List Nat

namespace Ledger

def empty : Ledger where
  futures := []
  called  := []

def noteFuture (l : Ledger) : Option Handle → Ledger
  | some (.promise (some a) false) => { l with futures := a :: l.futures }
  | _                              => l

def noteCall (l : Ledger) : Option Handle → Ledger
  | some (.future (some a)) => { l with called := a :: l.called }
  | _                       => l

@[simp]
theorem noteCall_futures (l : Ledger) (h : Option Handle) : (l.noteCall h).futures = l.futures := by
  simp only [noteCall]
  split <;> rfl

def note (s₁ : Config ε α κ ξ γ) (act : Action ε α κ) (s₂ : Config ε α κ ξ γ) (l : Ledger) : Ledger :=
  if s₂.fault.isSome then
    l
  else
    match act with
    | .getFuture this           => l.noteFuture s₁.handles[this]?
    | .setContinuation this _ _ => l.noteCall s₁.handles[this]?
    | _                         => l

end Ledger

def recorded : System (Config ε α κ ξ γ × Ledger) (Action ε α κ) :=
  system.record .empty Ledger.note

-- The promise that a step copies, by copy construction or in the second half of a copy assignment.
def Config.copied (s : Config ε α κ ξ γ) : Action ε α κ → Option Handle
  | .copyPromise other => s.handles[other]?
  | .copy this         =>
    match s.handles[this]? with
    | some (.copying other) => s.handles[other]?
    | _                     => none
  | _ => none

def Handle.flagged : Handle → Bool
  | promise (some _) has_future_ => has_future_
  | _                            => true

-- No promise is copied that has no future yet.
def CopiesFlagged (r : Config ε α κ ξ γ × Ledger) (act : Action ε α κ) : Prop :=
  (r.1.copied act).all (·.flagged)

instance (r : Config ε α κ ξ γ × Ledger) (act : Action ε α κ) : Decidable (CopiesFlagged r act) :=
  inferInstanceAs (Decidable (_ = true))

-- At most one future is taken from one state, and every further `GetFuture` throws. Thus, no two futures
-- share a state, and the state of a future has no continuation until `SetContinuation` is called on this
-- future.
structure SingleFuture (s : Config ε α κ ξ γ) (l : Ledger) : Prop where
  once     : ∀ a, l.futures.count a ≤ 1
  thrown   : ∀ (i : Nat) a f, s.handles[i]? = some (.promise (some a) f) → a ∈ l.futures →
    s.getFuture i = some (.error (.logicError "Promise already has a future"))
  unshared : ∀ (i j : Nat) a, s.handles[i]? = some (.future (some a)) → s.handles[j]? = some (.future (some a)) → i = j
  accepted : ∀ (i : Nat) a func inline, s.handles[i]? = some (.future (some a)) → a ∉ l.called →
    ((s.states a).setContinuation func inline).isOk

-- Handles that are not counted.
structure Neutral (p : Handle → Bool) : Prop where
  destroyed : p .destroyed = false
  copying   : ∀ i, p (.copying i) = false
  detaching : ∀ a next, p (.detaching a next) = false
  reference : ∀ a, p (.reference a) = false
  promise   : ∀ f, p (.promise none f) = false
  future    : p (.future none) = false

def Config.tally (s : Config ε α κ ξ γ) (p : Handle → Bool) : Nat :=
  s.handles.countP p

namespace Handle

-- A promise whose `GetFuture` succeeds.
def open_ (a : Nat) : Handle → Bool
  | promise (some b) false => b = a
  | _                      => false

def isFuture (a : Nat) : Handle → Bool
  | future (some b) => b = a
  | _               => false

def names (a : Nat) : Handle → Bool
  | promise (some b) _ => b = a
  | future (some b)    => b = a
  | _                  => false

theorem neutral_open_ : Neutral (open_ a) := ⟨rfl, fun _ => rfl, fun _ _ => rfl, fun _ => rfl, fun _ => rfl, rfl⟩

theorem neutral_isFuture : Neutral (isFuture a) :=
  ⟨rfl, fun _ => rfl, fun _ _ => rfl, fun _ => rfl, fun _ => rfl, rfl⟩

theorem neutral_names : Neutral (names a) := ⟨rfl, fun _ => rfl, fun _ _ => rfl, fun _ => rfl, fun _ => rfl, rfl⟩

end Handle

variable {s s₁ s₂ : Config ε α κ ξ γ} {act : Action ε α κ} {p : Handle → Bool} {l : Ledger}

namespace Config

theorem tally_add : (s.add x).tally p = s.tally p + if p x then 1 else 0 := by
  simp [tally, add, List.countP_append, List.countP_singleton]

theorem tally_set (y : Handle) (h : s.handles[i]? = some x) :
    (s.set i y).tally p + (if p x then 1 else 0) = s.tally p + if p y then 1 else 0 :=
  Count.countP_set y h

theorem tally_guards (hp : Neutral p) : ((s.setState a fs).addGuards a guards).tally p = s.tally p := by
  simp [tally, addGuards, setState, List.countP_append, List.countP_replicate, hp.reference]

theorem tally_pos {i : Nat} (h : s.handles[i]? = some x) (hx : p x) : 0 < s.tally p :=
  List.countP_pos_iff.mpr ⟨x, List.mem_of_getElem? h, hx⟩

theorem call_cases (s : Config ε α κ ξ γ) (a : Nat) (f) (k : Config ε α κ ξ γ → Config ε α κ ξ γ) :
    (∃ x, s.call a f k = s.fail x) ∨
    ∃ fs guards, f (s.states a) = .ok (fs, guards) ∧ s.call a f k = k ((s.setState a fs).addGuards a guards) := by
  simp only [call]
  split
  case isTrue  => exact .inl ⟨_, rfl⟩
  case isFalse =>
    split
    case h_1 h => exact .inr ⟨_, _, h, rfl⟩
    case h_2   => exact .inl ⟨_, rfl⟩

theorem call_eq (h : s.call a f k = s') :
    (∃ x, s' = s.fail x) ∨
    ∃ fs guards, f (s.states a) = .ok (fs, guards) ∧ s' = k ((s.setState a fs).addGuards a guards) :=
  h ▸ s.call_cases a f k

end Config

-- How a step changes the handles and the futures of the record.
inductive Change (s₁ : Config ε α κ ξ γ) (act : Action ε α κ) (s₂ : Config ε α κ ξ γ) : Prop
  | keep :
    (∀ p, Neutral p → s₂.tally p ≤ s₁.tally p) → (s₂.fresh = s₁.fresh) →
    (∀ l, (Ledger.note s₁ act s₂ l).futures = l.futures) →
    Change s₁ act s₂
  | new :
    (act = .newPromise) → (s₂ = s₁.newPromise) → Change s₁ act s₂
  | copied (f : Bool) :
    (∀ p, Neutral p → s₂.tally p = s₁.tally p + if p (.promise (some a) f) then 1 else 0) →
    (s₁.copied act = some (.promise (some a) f)) → (0 < s₁.tally (Handle.names a)) → (s₂.fresh = s₁.fresh) →
    (∀ l, (Ledger.note s₁ act s₂ l).futures = l.futures) → Change s₁ act s₂
  | taken :
    (act = .getFuture this) → (s₁.handles[this]? = some (.promise (some a) false)) →
    (∀ p, Neutral p → s₂.tally p + (if p (.promise (some a) false) then 1 else 0) =
      s₁.tally p + (if p (.promise (some a) true) then 1 else 0) + if p (.future (some a)) then 1 else 0) →
    (s₂.fresh = s₁.fresh) →
    (∀ l, (Ledger.note s₁ act s₂ l).futures = a :: l.futures) → Change s₁ act s₂

namespace Change

theorem of_eq (hh : s₂.handles = s₁.handles) (hf : s₂.fresh = s₁.fresh)
    (hn : ∀ l, (Ledger.note s₁ act s₂ l).futures = l.futures) :
    Change s₁ act s₂ :=
  .keep (fun p _ => by rw [Config.tally, hh]; exact Nat.le_refl _) hf hn

theorem fail (x : Fault) : Change s₁ act (s₁.fail x) :=
  .of_eq rfl rfl fun _ => rfl

-- A call of a function of a shared state, after which handle `this` is replaced.
theorem call {this : Nat} {x y : Handle} (hx : s₁.handles[this]? = some x) (hy : ∀ p, Neutral p → p y = false)
    (f) (hn : ∀ s₂ l, (Ledger.note s₁ act s₂ l).futures = l.futures) :
    Change s₁ act (s₁.call a f (·.set this y)) := by
  obtain ⟨x, h⟩ | ⟨fs, guards, _, h⟩ := s₁.call_cases a f (·.set this y) <;> rw [h]
  case inl => exact fail x
  case inr =>
    refine .keep (fun p hp => ?_) rfl (hn _)
    have hx : ((s₁.setState a fs).addGuards a guards).handles[this]? = some x := by
      simp only [Config.addGuards, Config.setState]
      rw [List.getElem?_append_left (List.getElem?_eq_some_iff.mp hx).1, hx]
    have := Config.tally_set (p := p) y hx
    have : ((s₁.setState a fs).addGuards a guards).tally p = s₁.tally p := Config.tally_guards hp
    simp only [hy p hp, Bool.false_eq_true, if_false] at *
    omega

-- A call that leaves the handles as they are.
theorem call_id (f)
    (hn : ∀ s₂ l, (Ledger.note s₁ act s₂ l).futures = l.futures) :
    Change s₁ act (s₁.call a f id) := by
  obtain ⟨x, h⟩ | ⟨fs, guards, _, h⟩ := s₁.call_cases a f id <;> rw [h]
  case inl => exact fail x
  case inr => exact .keep (fun p hp => Nat.le_of_eq (Config.tally_guards hp)) rfl (hn _)

-- Move construction and the first half of move assignment take the place of the handle `other`.
theorem move {other : Nat} {x y : Handle} (hx : s₁.handles[other]? = some x) (hy : ∀ p, Neutral p → p y = false)
    (hn : ∀ s₂ l, (Ledger.note s₁ act s₂ l).futures = l.futures) :
    Change s₁ act ((s₁.set other y).add x) := by
  refine .keep (fun p hp => ?_) rfl (hn _)
  have := Config.tally_set (p := p) y hx
  simp only [Config.tally_add, hy p hp, Bool.false_eq_true, if_false] at *
  omega

theorem assign {this other : Nat} {x y z : Handle} (hs : s.handles = s₁.handles) (hf : s.fresh = s₁.fresh)
    (hne : this ≠ other) (hx : s₁.handles[this]? = some x) (hy : s₁.handles[other]? = some y)
    (hz : ∀ p, Neutral p → p z = false)
    (hn : ∀ s₂ l, (Ledger.note s₁ act s₂ l).futures = l.futures) :
    Change s₁ act ((s.set this y).set other z) := by
  refine .keep (fun p hp => ?_) hf (hn _)
  have hy' : (s.set this y).handles[other]? = some y := by
    rw [Config.set, List.getElem?_set_ne hne, hs, hy]
  have h₁ := Config.tally_set (p := p) y (hs ▸ hx)
  have h₂ := Config.tally_set (p := p) z hy'
  have h₃ : s.tally p = s₁.tally p := by rw [Config.tally, hs, Config.tally]
  simp only [hz p hp, Bool.false_eq_true, if_false] at h₂
  omega

theorem copyPromise {k : Handle → Config ε α κ ξ γ → Config ε α κ ξ γ} (h : s₁.copyPromise other k = some s₂)
    (hk : ∀ x s, s.handles = s₁.handles →
      (∀ p, Neutral p → (k x s).tally p = s₁.tally p + if p x then 1 else 0) ∧ (k x s).fresh = s.fresh)
    (hc : s₁.copied act = s₁.handles[other]?) (hn : ∀ s₂ l, (Ledger.note s₁ act s₂ l).futures = l.futures) :
    Change s₁ act s₂ := by
  simp only [Config.copyPromise] at h
  split at h <;> cases h
  case h_2 => exact fail _
  case h_1 a f hx =>
    obtain ⟨x, h⟩ | ⟨fs, guards, he, h⟩ :=
      s₁.call_cases a (fun fs => .ok (fs.attachPromise, 0)) (k (.promise (some a) f)) <;> rw [h]
    case inl => exact fail x
    case inr =>
      cases he
      obtain ⟨ht, hfr⟩ := hk (.promise (some a) f) ((s₁.setState a (s₁.states a).attachPromise).addGuards a 0)
        (List.append_nil _)
      exact .copied f ht (hc.trans hx) (Config.tally_pos hx (decide_eq_true rfl)) hfr (hn _)

theorem detachPromise {this : Nat} {next : Next} {inline : Bool} (h : s₁.detachPromise this inline next = some s₂)
    (hn : ∀ s₂ l, (Ledger.note s₁ act s₂ l).futures = l.futures) :
    Change s₁ act s₂ := by
  simp only [Config.detachPromise] at h
  split at h <;> cases h
  case h_1 hx => exact call hx (fun p hp => hp.detaching ..) _ hn
  case h_2 hx =>
    refine .keep (fun p hp => ?_) rfl (hn _)
    have hy : p next.handle = false := by
      cases next
      case destroyed => exact hp.destroyed
      case copy      => exact hp.copying _
    have := Config.tally_set (p := p) next.handle hx
    simp only [hy, Bool.false_eq_true, if_false] at this
    omega

theorem getFuture (hf : s₁.fault = none) (h : (s₁.getFuture this).map (·.toOption.getD s₁) = some s₂) :
    Change s₁ (.getFuture this) s₂ := by
  obtain ⟨a, hx, rfl⟩ | ⟨sh, f, hx, hsf, rfl⟩ := Config.getFuture_cases h
  case inl =>
    obtain ⟨x, h⟩ | ⟨fs, guards, he, h⟩ := s₁.call_cases a (fun fs => .ok (fs.attachOne, 0)) fun s =>
      (s.set this (.promise (some a) true)).add (.future (some a)) <;> rw [h]
    case inl => exact fail x
    case inr =>
      cases he
      refine .taken rfl hx (fun p hp => ?_) rfl fun l => ?_
      · have hx : ((s₁.setState a (s₁.states a).attachOne).addGuards a 0).handles[this]? =
            some (.promise (some a) false) := by
          simp only [Config.addGuards, Config.setState, List.replicate_zero, List.append_nil, hx]
        have := Config.tally_set (p := p) (.promise (some a) true) hx
        have : ((s₁.setState a (s₁.states a).attachOne).addGuards a 0).tally p = s₁.tally p := Config.tally_guards hp
        simp only [Config.tally_add]
        omega
      · simp [Ledger.note, Config.add, Config.set, Config.addGuards, Config.setState, hf, hx, Ledger.noteFuture]
  case inr =>
    refine .of_eq rfl rfl fun l => ?_
    have hl : l.noteFuture (some (.promise sh f)) = l := by
      cases sh
      case none   => rfl
      case some a => cases hsf.resolve_left (Option.some_ne_none a); rfl
    simp [Ledger.note, hf, hx, hl]

-- Only the two actions that are mentioned by the record change it.
theorem note_eq (s₁ : Config ε α κ ξ γ) (act : Action ε α κ)
    (hn : ∀ s₂ l, s₂.fault.isSome = false → (Ledger.note s₁ act s₂ l).futures = l.futures) (s₂) (l) :
    (Ledger.note s₁ act s₂ l).futures = l.futures := by
  cases hf : s₂.fault.isSome
  case true  => simp [Ledger.note, hf]
  case false => exact hn s₂ l hf

theorem of_step (hf : s₁.fault = none) (h : Handles.step s₁ act = some s₂) : Change s₁ act s₂ := by
  have hn := note_eq s₁ act
  cases act <;> simp only [Handles.step] at h
  case newPromise => exact .new rfl (Option.some.inj h).symm
  case copyPromise =>
    refine copyPromise h (fun x s hs => ⟨fun p _ => ?_, rfl⟩) rfl (hn fun s₂ l hf => by simp [Ledger.note, hf])
    rw [Config.tally_add, Config.tally, hs, Config.tally]
  case movePromise =>
    split at h <;> cases h
    exact move ‹_› (fun p hp => hp.promise _) (hn fun s₂ l hf => by simp [Ledger.note, hf])
  case copyAssign =>
    split at h
    case isTrue  => cases h; exact .of_eq rfl rfl (hn (fun s₂ l hf => by simp [Ledger.note, hf]) _)
    case isFalse => exact detachPromise h (hn fun s₂ l hf => by simp [Ledger.note, hf])
  case moveAssign =>
    have hn := hn fun s₂ l hf => by simp [Ledger.note, hf]
    simp only [Config.moveAssign] at h
    split at h <;> try contradiction
    case h_1 old _ _ _ hx hy =>
    split at h <;> cases h
    case isTrue      => exact .of_eq rfl rfl (hn _)
    case isFalse hne =>
      refine assign ?_ ?_ hne hx hy (fun p hp => hp.promise _) hn <;> cases old <;> rfl
  case destroyPromise => exact detachPromise h (hn fun s₂ l hf => by simp [Ledger.note, hf])
  case detachOne =>
    have hn := hn fun s₂ l hf => by simp [Ledger.note, hf]
    split at h <;> cases h
    case h_1 next hx =>
    refine call hx (fun p hp => ?_) _ hn
    cases next
    case destroyed => exact hp.destroyed
    case copy      => exact hp.copying _
  case copy this =>
    split at h <;> try contradiction
    case h_1 other hx =>
    refine copyPromise h (fun x s hs => ⟨fun p hp => ?_, rfl⟩) (by simp only [Config.copied, hx])
      (hn fun s₂ l hf => by simp [Ledger.note, hf])
    have := Config.tally_set (p := p) x (hs ▸ hx)
    simp only [hp.copying, Bool.false_eq_true, if_false, Nat.add_zero] at this
    rw [this, Config.tally, hs, Config.tally]
  case setResult =>
    have hn := hn fun s₂ l hf => by simp [Ledger.note, hf]
    simp only [Config.setResult] at h
    split at h <;> cases h
    case h_1 => exact call_id _ hn
    case h_2 => exact .of_eq rfl rfl (hn _)
  case getFuture => exact getFuture hf h
  case moveFuture =>
    split at h <;> cases h
    exact move ‹_› (fun p hp => hp.future) (hn fun s₂ l hf => by simp [Ledger.note, hf])
  case moveAssignFuture =>
    have hn := hn fun s₂ l hf => by simp [Ledger.note, hf]
    simp only [Config.moveAssignFuture] at h
    split at h <;> try contradiction
    case h_1 old _ hx hy =>
    split at h <;> cases h
    case isTrue      => exact .of_eq rfl rfl (hn _)
    case isFalse hne =>
      refine assign ?_ ?_ hne hx hy (fun p hp => hp.future) hn <;> cases old <;> rfl
  case destroyFuture =>
    have hn := hn fun s₂ l hf => by simp [Ledger.note, hf]
    split at h <;> cases h
    case h_1 hx => exact call hx (fun p hp => hp.destroyed) _ hn
    case h_2 hx =>
      refine .keep (fun p hp => ?_) rfl (hn _)
      have := Config.tally_set (p := p) .destroyed hx
      simp only [hp.destroyed, Bool.false_eq_true, if_false] at this
      omega
  case setContinuation =>
    have hn := hn fun s₂ l hf => by simp [Ledger.note, hf]
    simp only [Config.setContinuation] at h
    split at h <;> cases h
    exact call_id _ hn
  case copyReference =>
    have hn := hn fun s₂ l hf => by simp [Ledger.note, hf]
    split at h <;> cases h
    case h_1 a hx =>
      obtain ⟨x, h⟩ | ⟨fs, guards, _, h⟩ := s₁.call_cases a (fun fs => .ok (fs.attachReference, 0))
        (·.add (.reference (some a))) <;> rw [h]
      case inl => exact fail x
      case inr =>
        refine .keep (fun p hp => ?_) rfl (hn _)
        simp [Config.tally_add, Config.tally_guards hp, hp.reference]
    case h_2 =>
      refine .keep (fun p hp => ?_) rfl (hn _)
      simp [Config.tally_add, hp.reference]
  case moveReference =>
    split at h <;> cases h
    exact move ‹_› (fun p hp => hp.reference _) (hn fun s₂ l hf => by simp [Ledger.note, hf])
  case destroyReference =>
    have hn := hn fun s₂ l hf => by simp [Ledger.note, hf]
    split at h <;> cases h
    case h_1 hx => exact call hx (fun p hp => hp.destroyed) _ hn
    case h_2 hx =>
      refine .keep (fun p hp => ?_) rfl (hn _)
      have := Config.tally_set (p := p) .destroyed hx
      simp only [hp.destroyed, Bool.false_eq_true, if_false] at this
      omega

end Change

-- A state gets a continuation only through `SetContinuation` of a future.

section HasContinuation

variable {fs fs' : SharedState ε α κ ξ γ}

theorem hasContinuation_setResult (h : fs.toFutureState.setResult value = .ok r) :
    r.1.hasContinuation = fs.hasContinuation := by
  cases hs : fs.state_ <;>
    simp [FutureState.setResult, FutureState.hasResult, hs] at h <;>
    subst h <;> simp [FutureState.hasContinuation, hs]

theorem hasContinuation_schedule {inline : Bool} (h : fs.schedule inline r = (fs', guards)) :
    fs'.hasContinuation = r.1.hasContinuation := by
  rw [FutureState.hasContinuation, FutureState.hasContinuation, ← schedule_toFutureState, h]

theorem hasContinuation_set {value : Try ε α} {inline : Bool} (h : fs.setResult value inline = .ok (fs', guards)) :
    fs'.hasContinuation = fs.hasContinuation := by
  cases hr : fs.toFutureState.setResult value <;> simp only [SharedState.setResult, hr] at h
  case error => contradiction
  case ok r =>
    exact (hasContinuation_schedule (Except.ok.inj h)).trans (hasContinuation_setResult hr)

theorem hasContinuation_detachPromise {inline : Bool} (h : fs.detachPromise inline = .ok (fs', guards)) :
    fs'.hasContinuation = fs.hasContinuation := by
  simp only [SharedState.detachPromise] at h
  split at h
  case isFalse => contradiction
  case isTrue  =>
    split at h
    case isFalse => cases h; rfl
    case isTrue  =>
      split at h <;> cases h
      case h_1 hs =>
        have := hasContinuation_set hs
        exact this
      case h_2 => rfl

theorem hasContinuation_detachOne (h : fs.detachOne.map (·, 0) = .ok (fs', guards)) :
    fs'.hasContinuation = fs.hasContinuation := by
  cases hd : fs.detachOne <;> rw [hd] at h <;> cases h
  obtain ⟨_, _, rfl⟩ := detachOne_ok hd
  rfl

theorem hasContinuation_detachReference (h : fs.detachReference.map (·, 0) = .ok (fs', guards)) :
    fs'.hasContinuation = fs.hasContinuation := by
  cases hd : fs.detachReference <;> rw [hd] at h <;> cases h
  obtain ⟨_, _, _, rfl⟩ := detachReference_ok hd
  rfl

theorem hasContinuation_call {b : Nat} (k : Config ε α κ ξ γ → Config ε α κ ξ γ) (hk : ∀ s, (k s).states = s.states)
    (hf : ∀ fs guards, f (s.states a) = .ok (fs, guards) → fs.hasContinuation = (s.states a).hasContinuation) :
    ((s.call a f k).states b).hasContinuation = (s.states b).hasContinuation := by
  obtain ⟨x, h⟩ | ⟨fs, guards, he, h⟩ := s.call_cases a f k <;> rw [h]
  case inl => rfl
  case inr =>
    rw [hk]
    by_cases hb : b = a
    · subst hb
      simp only [Config.addGuards, Config.setState, Function.update_self, hf _ _ he]
    · simp only [Config.addGuards, Config.setState, Function.update_of_ne hb]

theorem hasContinuation_copyPromise {k : Handle → Config ε α κ ξ γ → Config ε α κ ξ γ} {b : Nat}
    (h : s₁.copyPromise other k = some s₂) (hk : ∀ x s, (k x s).states = s.states) :
    (s₂.states b).hasContinuation = (s₁.states b).hasContinuation := by
  simp only [Config.copyPromise] at h
  split at h <;> cases h
  case h_1 => exact hasContinuation_call _ (hk _) fun _ _ h => by cases h; rfl
  case h_2 => rfl

theorem hasContinuation_detach {inline : Bool} {next : Next} {b : Nat}
    (h : s₁.detachPromise this inline next = some s₂) :
    (s₂.states b).hasContinuation = (s₁.states b).hasContinuation := by
  simp only [Config.detachPromise] at h
  split at h <;> cases h
  case h_1 => exact hasContinuation_call _ (fun _ => rfl) fun _ _ h => hasContinuation_detachPromise h
  case h_2 => rfl

theorem hasContinuation_lose (b : Nat) (x : Option Nat) :
    ((s.losePromise x).states b).hasContinuation = (s.states b).hasContinuation ∧
    ((s.loseFuture x).states b).hasContinuation = (s.states b).hasContinuation := by
  cases x
  case none => exact ⟨rfl, rfl⟩
  case some a =>
    by_cases hb : b = a
    · subst hb
      simp [Config.losePromise, Config.loseFuture, Config.setState]
    · simp only [Config.losePromise, Config.loseFuture, Config.setState, Function.update_of_ne hb, and_self]

theorem hasContinuation_setContinuation (hf : s₁.fault = none) {this : Nat} {inline : Bool} {b : Nat}
    (h : s₁.setContinuation this func inline = some s₂) :
    (s₂.states b).hasContinuation = (s₁.states b).hasContinuation ∨
    b ∈ (Ledger.note s₁ (.setContinuation this func inline) s₂ l).called := by
  simp only [Config.setContinuation] at h
  split at h
  case h_2      => contradiction
  case h_1 a hx =>
    obtain ⟨x, rfl⟩ | ⟨fs, guards, _, rfl⟩ := Config.call_eq (Option.some.inj h)
    case inl => exact .inl rfl
    case inr =>
      by_cases hb : b = a
      · refine .inr ?_
        simp [Ledger.note, Config.addGuards, Config.setState, hf, hx, Ledger.noteCall, hb]
      · refine .inl ?_
        simp only [Config.addGuards, Config.setState, id_eq, Function.update_of_ne hb]

theorem hasContinuation_step (hf : s₁.fault = none) (h : Handles.step s₁ act = some s₂) (b : Nat) :
    ((s₂.states b).hasContinuation → (s₁.states b).hasContinuation) ∨
    b ∈ (Ledger.note s₁ act s₂ l).called := by
  have same : (s₂.states b).hasContinuation = (s₁.states b).hasContinuation →
      ((s₂.states b).hasContinuation → (s₁.states b).hasContinuation) ∨ b ∈ (Ledger.note s₁ act s₂ l).called :=
    fun h => .inl fun hc => h ▸ hc
  cases act <;> simp only [Handles.step] at h
  case newPromise =>
    cases h
    refine .inl fun hc => ?_
    by_cases hb : b = s₁.fresh
    · simp [Config.newPromise, Config.add, Config.setState, hb, SharedState.new, SharedState.attachPromise,
        SharedState.attachOne, FutureState.hasContinuation, FutureState.new] at hc
    · simpa only [Config.newPromise, Config.add, Config.setState, Function.update_of_ne hb] using hc
  case copyPromise    => exact same (hasContinuation_copyPromise h fun _ _ => rfl)
  case copyAssign     =>
    split at h
    case isTrue  => cases h; exact same rfl
    case isFalse => exact same (hasContinuation_detach h)
  case moveAssign     =>
    simp only [Config.moveAssign] at h
    split at h <;> try contradiction
    case h_1 =>
    split at h <;> cases h
    case isTrue  => exact same rfl
    case isFalse => exact same (hasContinuation_lose b _).left
  case destroyPromise => exact same (hasContinuation_detach h)
  case detachOne      =>
    split at h <;> cases h
    exact same (hasContinuation_call _ (fun _ => rfl) fun _ _ h => hasContinuation_detachOne h)
  case copy           =>
    split at h <;> try contradiction
    exact same (hasContinuation_copyPromise h fun _ _ => rfl)
  case setResult      =>
    simp only [Config.setResult] at h
    split at h <;> cases h
    case h_2 => exact same rfl
    case h_1 =>
      refine same (hasContinuation_call _ (fun _ => rfl) fun fs guards h => ?_)
      split at h <;> cases h
      case h_1 he =>
        have := hasContinuation_set he
        exact this
      case h_2 => rfl
  case getFuture      =>
    obtain ⟨_, _, rfl⟩ | ⟨_, _, _, _, rfl⟩ := Config.getFuture_cases h
    · exact same (hasContinuation_call _ (fun _ => rfl) fun _ _ h => by cases h; rfl)
    · exact same rfl
  case moveAssignFuture =>
    simp only [Config.moveAssignFuture] at h
    split at h <;> try contradiction
    case h_1 =>
    split at h <;> cases h
    case isTrue  => exact same rfl
    case isFalse => exact same (hasContinuation_lose b _).right
  case destroyFuture    =>
    split at h <;> cases h
    case h_1 => exact same (hasContinuation_call _ (fun _ => rfl) fun _ _ h => hasContinuation_detachOne h)
    case h_2 => exact same rfl
  case setContinuation  =>
    cases hasContinuation_setContinuation (l := l) (b := b) hf h
    case inl h => exact same h
    case inr h => exact .inr h
  case copyReference    =>
    split at h <;> cases h
    case h_1 => exact same (hasContinuation_call _ (fun _ => rfl) fun _ _ h => by cases h; rfl)
    case h_2 => exact same rfl
  case destroyReference =>
    split at h <;> cases h
    case h_1 => exact same (hasContinuation_call _ (fun _ => rfl) fun _ _ h => hasContinuation_detachReference h)
    case h_2 => exact same rfl
  case movePromise | moveFuture | moveReference =>
    split at h <;> cases h
    exact same rfl

end HasContinuation

theorem called_subset (s₁) (act) (s₂ : Config ε α κ ξ γ) (l) : l.called ⊆ (Ledger.note s₁ act s₂ l).called := by
  have future (h) : (l.noteFuture h).called = l.called := by
    simp only [Ledger.noteFuture]
    split <;> rfl
  have call (h) : l.called ⊆ (l.noteCall h).called := by
    simp only [Ledger.noteCall]
    split
    case h_1 => exact List.subset_cons_self ..
    case h_2 => exact List.Subset.refl _
  simp only [Ledger.note]
  split
  case isTrue  => exact List.Subset.refl _
  case isFalse =>
    split
    case h_1 => simp only [future, List.Subset.refl]
    case h_2 => exact call _
    case h_3 => exact List.Subset.refl _

-- What holds in every history in which no promise is copied without a future. A handle whose `GetFuture`
-- would succeed stands for the one future that its state has not given yet.
structure LedgerInv (s : Config ε α κ ξ γ) (l : Ledger) : Prop where
  open_  : ∀ a, s.tally (Handle.open_ a) + l.futures.count a ≤ 1
  once   : ∀ a, l.futures.count a ≤ 1
  future : ∀ a, s.tally (Handle.isFuture a) ≤ l.futures.count a
  named  : ∀ a, 0 < s.tally (Handle.names a) → a < s.fresh
  given  : ∀ a ∈ l.futures, a < s.fresh
  called : ∀ a, (s.states a).hasContinuation → a ∈ l.called

theorem tally_open_le (a : Nat) : s.tally (Handle.open_ a) ≤ s.tally (Handle.names a) := by
  refine List.countP_mono_left fun h _ hp => ?_
  simp only [Handle.open_] at hp
  split at hp
  case h_1 => exact hp
  case h_2 => contradiction

namespace LedgerInv

theorem init : LedgerInv (system (ε := ε) (α := α) (κ := κ) (ξ := ξ) (γ := γ)).init .empty where
  open_ a   := by simp [system, Config.tally, Ledger.empty]
  once a    := by simp [Ledger.empty]
  future a  := by simp [system, Config.tally]
  named a h := by simp [system, Config.tally] at h
  given a h := by simp [Ledger.empty] at h
  called a h := by simp [system, SharedState.new] at h

theorem keep {l₁ l₂ : Ledger} (i : LedgerInv s₁ l₁) (ht : ∀ p, Neutral p → s₂.tally p ≤ s₁.tally p)
    (hf : s₂.fresh = s₁.fresh) (hn : l₂.futures = l₁.futures)
    (hc : ∀ a, (s₂.states a).hasContinuation → a ∈ l₂.called) : LedgerInv s₂ l₂ where
  open_ a   := by
    have := i.open_ a
    have := ht _ (Handle.neutral_open_ (a := a))
    rw [hn]
    omega
  once a    := hn ▸ i.once a
  future a  := hn ▸ (ht _ Handle.neutral_isFuture).trans (i.future a)
  named a h := hf ▸ i.named a (h.trans_le (ht _ Handle.neutral_names))
  given a h := hf ▸ i.given a (hn ▸ h)
  called    := hc

theorem new (i : LedgerInv s l) (hc : ∀ a, (s.newPromise.states a).hasContinuation → a ∈ l.called) :
    LedgerInv s.newPromise l := by
  have ht (p) : s.newPromise.tally p = s.tally p + if p (.promise (some s.fresh) false) then 1 else 0 :=
    Config.tally_add
  have hname : s.tally (Handle.names s.fresh) = 0 :=
    Nat.eq_zero_of_not_pos fun h => Nat.lt_irrefl _ (i.named _ h)
  have hgiven : l.futures.count s.fresh = 0 :=
    List.count_eq_zero.mpr fun h => Nat.lt_irrefl _ (i.given _ h)
  constructor
  case open_ =>
    intro a
    have := tally_open_le (s := s) s.fresh
    rw [ht]
    simp only [Handle.open_, decide_eq_true_eq]
    split
    case isTrue h  => subst h; omega
    case isFalse h => exact i.open_ a
  case once   => exact i.once
  case future => exact fun a => (ht _).trans_le (i.future a)
  case named  =>
    intro a h
    rw [ht] at h
    simp only [Handle.names, decide_eq_true_eq] at h
    split at h
    case isTrue ha => exact ha ▸ Nat.lt_succ_self _
    case isFalse   => exact Nat.lt_succ_of_lt (i.named a h)
  case given  => exact fun a h => Nat.lt_succ_of_lt (i.given a h)
  case called => exact hc

-- The copy of a promise that has a future has one as well.
theorem copied {a : Nat} {l₁ l₂ : Ledger} (i : LedgerInv s₁ l₁)
    (ht : ∀ p, Neutral p → s₂.tally p = s₁.tally p + if p (.promise (some a) true) then 1 else 0)
    (ha : 0 < s₁.tally (Handle.names a)) (hf : s₂.fresh = s₁.fresh) (hn : l₂.futures = l₁.futures)
    (hc : ∀ a, (s₂.states a).hasContinuation → a ∈ l₂.called) : LedgerInv s₂ l₂ where
  open_ b   := by
    rw [ht _ Handle.neutral_open_, hn]
    exact i.open_ b
  once b    := hn ▸ i.once b
  future b  := by
    rw [ht _ Handle.neutral_isFuture, hn]
    exact i.future b
  named b h := by
    rw [ht _ Handle.neutral_names] at h
    simp only [Handle.names, decide_eq_true_eq] at h
    split at h
    case isTrue hb => exact hf ▸ hb ▸ i.named a ha
    case isFalse   => exact hf ▸ i.named b h
  given b h := hf ▸ i.given b (hn ▸ h)
  called    := hc

theorem taken {a this : Nat} {l₁ l₂ : Ledger} (i : LedgerInv s₁ l₁)
    (hx : s₁.handles[this]? = some (.promise (some a) false))
    (ht : ∀ p, Neutral p → s₂.tally p + (if p (.promise (some a) false) then 1 else 0) =
      s₁.tally p + (if p (.promise (some a) true) then 1 else 0) + if p (.future (some a)) then 1 else 0)
    (hf : s₂.fresh = s₁.fresh) (hn : l₂.futures = a :: l₁.futures)
    (hc : ∀ a, (s₂.states a).hasContinuation → a ∈ l₂.called) : LedgerInv s₂ l₂ := by
  have hopen : 0 < s₁.tally (Handle.open_ a) := Config.tally_pos hx (decide_eq_true rfl)
  have hzero : l₁.futures.count a = 0 := by
    have := i.open_ a
    omega
  have hcount (b) : l₂.futures.count b = l₁.futures.count b + if a = b then 1 else 0 := by
    simp [hn, List.count_cons]
  constructor
  case open_ =>
    intro b
    have := i.open_ b
    have := ht _ (Handle.neutral_open_ (a := b))
    simp only [Handle.open_, decide_eq_true_eq, Bool.false_eq_true, if_false] at this
    rw [hcount]
    omega
  case once =>
    intro b
    rw [hcount]
    split
    case isTrue h  => subst h; omega
    case isFalse h => exact i.once b
  case future =>
    intro b
    have := i.future b
    have := ht _ (Handle.neutral_isFuture (a := b))
    simp only [Handle.isFuture, decide_eq_true_eq, Bool.false_eq_true, if_false] at this
    rw [hcount]
    omega
  case named =>
    intro b h
    have := ht _ (Handle.neutral_names (a := b))
    simp only [Handle.names, decide_eq_true_eq] at this
    refine hf ▸ i.named b ?_
    by_cases hb : a = b
    · subst hb
      exact hopen.trans_le (tally_open_le a)
    · simp only [if_neg hb] at this
      omega
  case given =>
    intro b h
    rw [hn] at h
    cases h
    case head   => exact hf ▸ i.named a (hopen.trans_le (tally_open_le a))
    case tail h => exact hf ▸ i.given b h
  case called => exact hc

theorem step (i : LedgerInv s₁ l) (h : system.step s₁ act = some s₂) (hu : CopiesFlagged (s₁, l) act) :
    LedgerInv s₂ (Ledger.note s₁ act s₂ l) := by
  simp only [system] at h
  split at h
  case isFalse   => contradiction
  case isTrue hf =>
    have hc (b) (hb : (s₂.states b).hasContinuation) : b ∈ (Ledger.note s₁ act s₂ l).called :=
      (hasContinuation_step hf h b).elim (fun h => called_subset _ _ _ _ (i.called b (h hb))) id
    cases Change.of_step hf h
    case keep ht hf hn         => exact i.keep ht hf (hn l) hc
    case new ha hs             =>
      subst ha hs
      have hn : Ledger.note s₁ .newPromise s₁.newPromise l = l := by simp [Ledger.note]
      rw [hn] at hc ⊢
      exact i.new hc
    case copied a f ht hx ha hf hn =>
      obtain rfl : f = true := by simpa [CopiesFlagged, hx, Handle.flagged] using hu
      exact i.copied ht ha hf (hn l) hc
    case taken _ hx ht hf hn   => exact i.taken hx ht hf (hn l) hc

theorem singleFuture (i : LedgerInv s l) : SingleFuture s l where
  once := i.once
  thrown j a f hj ha := by
    cases f
    case true  => simp only [Config.getFuture, hj]
    case false =>
      have := Config.tally_pos (p := Handle.open_ a) hj (decide_eq_true rfl)
      have := i.open_ a
      have := List.count_pos_iff.mpr ha
      omega
  unshared j k a hj hk := by
    by_contra hne
    have hk' : (s.set j .destroyed).handles[k]? = some (.future (some a)) := by
      rw [Config.set, List.getElem?_set_ne hne, hk]
    have := Config.tally_pos (p := Handle.isFuture a) hk' (decide_eq_true rfl)
    have := Config.tally_set (p := Handle.isFuture a) .destroyed hj
    simp only [Handle.isFuture, decide_true, if_true, Bool.false_eq_true, if_false] at this
    have := i.future a
    have := i.once a
    omega
  accepted j a func inline _ ha := by
    have : (s.states a).hasContinuation = false := Bool.eq_false_iff.mpr (ha ∘ i.called a)
    rw [SharedState.setContinuation, FutureState.setContinuation_eq func this]
    rfl

end LedgerInv

-- `GetFuture` gives a future of the state of a promise that has none yet, and moves no other handle.
theorem getFuture_step {i a : Nat} (hf : s.fault = none) (hd : (s.states a).deleted = false)
    (hi : s.handles[i]? = some (.promise (some a) false)) :
    ∃ s', recorded.step (s, l) (.getFuture i) = some (s', { l with futures := a :: l.futures }) ∧
      s'.fault = none ∧ (s'.states a).deleted = false ∧
      ∀ j x, j ≠ i → s.handles[j]? = some x → s'.handles[j]? = some x := by
  refine ⟨(((s.setState a (s.states a).attachOne).addGuards a 0).set i (.promise (some a) true)).add (.future (some a)),
    System.record_step.mpr ⟨?_, ?_⟩, hf, ?_, fun j x hj hx => ?_⟩
  · simp [system, step, hf, Config.getFuture, hi, Config.call, hd, Except.toOption]
  · simp [Ledger.note, Config.add, Config.set, Config.addGuards, Config.setState, hf, hi, Ledger.noteFuture]
  · simpa [Config.add, Config.set, Config.addGuards, Config.setState, SharedState.attachOne] using hd
  · have hl : j < s.handles.length := (List.getElem?_eq_some_iff.mp hx).1
    simp only [Config.add, Config.set, Config.addGuards, Config.setState, List.replicate_zero, List.append_nil]
    rw [List.getElem?_append_left (by simpa using hl), List.getElem?_set_ne hj.symm, hx]

-- Two promises of one state that have no future give two futures.
theorem two_of_open {i j a : Nat} (hf : s.fault = none) (hd : (s.states a).deleted = false) (hij : j ≠ i)
    (hi : s.handles[i]? = some (.promise (some a) false)) (hj : s.handles[j]? = some (.promise (some a) false)) :
    ∃ as r, recorded.run (s, l) as = some r ∧ ¬SingleFuture r.1 r.2 := by
  obtain ⟨s₁, e₁, hf₁, hd₁, hh⟩ := getFuture_step (l := l) hf hd hi
  obtain ⟨s₂, e₂, -⟩ := getFuture_step (l := { l with futures := a :: l.futures }) hf₁ hd₁ (hh j _ hij hj)
  have e : recorded.run (s, l) [.getFuture i, .getFuture j] = some (s₂, { l with futures := a :: a :: l.futures }) := by
    simp only [System.run, e₁, e₂, Option.bind_some]
  refine ⟨_, _, e, fun h => ?_⟩
  have := h.once a
  simp only [List.count_cons_self] at this
  omega

-- Once a promise `other` has been copied that has no future, and the copy is stored at `new`, two futures
-- can be taken.
theorem two_of_copyPromise {k : Handle → Config ε α κ ξ γ → Config ε α κ ξ γ} {other new : Nat}
    (h : s₁.copyPromise other k = some s₂) (hf : s₂.fault = none) (hx : ¬(s₁.handles[other]?).all (·.flagged))
    (hne : new ≠ other) (hs : ∀ x s, (k x s).states = s.states)
    (hk : ∀ x s, s.handles = s₁.handles →
      (k x s).handles[new]? = some x ∧ (k x s).handles[other]? = s₁.handles[other]?) :
    ∃ as r, recorded.run (s₂, l) as = some r ∧ ¬SingleFuture r.1 r.2 := by
  simp only [Config.copyPromise] at h
  split at h <;> cases h
  case h_2 hp => simp [Config.fail] at hf
  case h_1 a f hp =>
    obtain rfl : f = false := by simpa [hp, Handle.flagged] using hx
    simp only [Config.call] at hf ⊢
    split at hf
    case isTrue     => simp [Config.fail] at hf
    case isFalse hd =>
      rw [if_neg hd]
      obtain ⟨h₁, h₂⟩ := hk (.promise (some a) false)
        ((s₁.setState a (s₁.states a).attachPromise).addGuards a 0) (List.append_nil _)
      refine two_of_open hf ?_ hne (h₂.trans hp) h₁
      simpa [hs, Config.addGuards, Config.setState, SharedState.attachPromise, SharedState.attachOne] using hd

theorem two_of_copied (h : system.step s₁ act = some s₂) (hf : s₂.fault = none) (hc : ¬CopiesFlagged (s₁, l₁) act) :
    ∃ as r, recorded.run (s₂, l) as = some r ∧ ¬SingleFuture r.1 r.2 := by
  simp only [system] at h
  split at h <;> try contradiction
  cases act <;> simp only [CopiesFlagged, Config.copied, Option.all_none, not_true_eq_false] at hc
  case copyPromise other =>
    obtain ⟨x, hx⟩ : ∃ x, s₁.handles[other]? = some x := by
      cases hx : s₁.handles[other]? <;> simp [hx] at hc ⊢
    have hl := (List.getElem?_eq_some_iff.mp hx).1
    have h : s₁.copyPromise other (fun h s => s.add h) = some s₂ := h
    refine two_of_copyPromise h hf hc hl.ne' (fun _ _ => rfl) fun y s hs => ⟨?_, ?_⟩
    · simp [Config.add, hs]
    · simp only [Config.add, hs]
      exact List.getElem?_append_left hl
  case copy this =>
    split at hc
    case h_2 => simp at hc
    case h_1 other hx =>
      simp only [step, hx] at h
      have hne : this ≠ other := by
        rintro rfl
        simp [hx, Handle.flagged] at hc
      refine two_of_copyPromise h hf hc hne (fun _ _ => rfl) fun y s hs => ⟨?_, ?_⟩
      · simp only [Config.set, hs]
        exact List.getElem?_set_self (List.getElem?_eq_some_iff.mp hx).1
      · simp only [Config.set, hs]
        exact List.getElem?_set_ne hne

-- In every history in which no promise is copied that has no future, each state gives one future only.
-- A copy of such a promise, in turn, leads to two futures.
theorem single_future {r : Config ε α κ ξ γ × Ledger} (h : (recorded.restrict CopiesFlagged).Reachable r) :
    SingleFuture r.1 r.2 ∧
    ∀ act r', recorded.step r act = some r' → r'.1.fault = none → ¬CopiesFlagged r act →
      ∃ as r'', recorded.run r' as = some r'' ∧ ¬SingleFuture r''.1 r''.2 := by
  refine ⟨?_, fun act r' e hf hc => two_of_copied (System.record_step.mp e).1 hf hc⟩
  refine (h.invariant (I := fun r => LedgerInv r.1 r.2) .init fun {r₁ act r₂} i e => ?_).singleFuture
  obtain ⟨hu, e⟩ := System.restrict_step.mp e
  obtain ⟨e, hn⟩ := System.record_step.mp e
  exact hn ▸ i.step e hu

theorem single_future_copied :
    ∃ r : Config Unit Nat String Unit Unit × Ledger, r.2.futures = [1, 0] ∧
      r.1.handles[4]? = some (.promise (some 0) true) ∧ SingleFuture r.1 r.2 := by
  obtain ⟨r, hr, hs⟩ := (recorded.restrict CopiesFlagged).exists_reachable
    [.newPromise, .getFuture 0, .newPromise, .getFuture 2, .copyAssign 2 0 true, .detachOne 2, .copy 2, .copyPromise 2,
      .getFuture 2, .setContinuation 1 "first" true]
    (p := fun r : Config Unit Nat String Unit Unit × Ledger => r.2.futures = [1, 0] ∧
      r.1.handles[4]? = some (.promise (some 0) true)) (by decide)
  simp only [Bool.decide_and, Bool.and_eq_true, decide_eq_true_eq] at hs
  exact ⟨r, hs.left, hs.right, (single_future hr).left⟩

-- Two copies of a promise, each of which gives a future. The second continuation is rejected.
theorem two_futures :
    ∃ r : Config Unit Nat String Unit Unit × Ledger, recorded.Reachable r ∧ r.2.futures.count 0 = 2 ∧
      r.1.handles[2]? = some (.future (some 0)) ∧ r.1.handles[3]? = some (.future (some 0)) ∧
      ((r.1.states 0).setContinuation "second" true).isOk = false ∧ ¬ SingleFuture r.1 r.2 := by
  obtain ⟨r, hr, hs⟩ := recorded.exists_reachable
    [.newPromise, .copyPromise 0, .getFuture 0, .getFuture 1, .setContinuation 2 "first" true]
    (p := fun r : Config Unit Nat String Unit Unit × Ledger => r.2.futures.count 0 = 2 ∧
      r.1.handles[2]? = some (.future (some 0)) ∧ r.1.handles[3]? = some (.future (some 0)) ∧
      ((r.1.states 0).setContinuation "second" true).isOk = false) (by decide)
  simp only [Bool.decide_and, Bool.and_eq_true, decide_eq_true_eq] at hs
  obtain ⟨hc, h₂, h₃, ho⟩ := hs
  exact ⟨r, hr, hc, h₂, h₃, ho, fun h => absurd (h.unshared 2 3 0 h₂ h₃) (by decide)⟩

end Handles
end AsyncSimple
