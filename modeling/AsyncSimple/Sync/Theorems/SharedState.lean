import AsyncSimple.Lib.Count
import AsyncSimple.Lib.Counter
import AsyncSimple.Sync.Handles

open Transition Counter

namespace AsyncSimple
namespace Handles

-- The ways in which a handle refers to a shared state.
inductive Kind
  | holder
  | promise
  | reference
  deriving DecidableEq

def Handle.refersTo : Handle → Kind → Option Nat
  | promise shared_state_ _,   .holder    => shared_state_
  | promise shared_state_ _,   .promise   => shared_state_
  | detaching shared_state_ _, .holder    => shared_state_
  | future shared_state_,      .holder    => shared_state_
  | reference fs_,             .holder    => fs_
  | reference fs_,             .reference => fs_
  | _, _                                  => none

def Handle.weight (h : Handle) (k : Kind) (a : Nat) : Nat :=
  if h.refersTo k = some a then 1 else 0

variable {ε α κ ξ γ : Type}

namespace Config

def count (s : Config ε α κ ξ γ) (k : Kind) (a : Nat) : Nat :=
  s.handles.countP (·.refersTo k = some a)

variable {s : Config ε α κ ξ γ}

@[simp]
theorem count_add : (s.add x).count k a = s.count k a + x.weight k a := by
  simp [count, add, Handle.weight, List.countP_append, List.countP_singleton]

theorem count_set (y : Handle) (k : Kind) (a : Nat) (h : s.handles[i]? = some x) :
    (s.set i y).count k a + x.weight k a = s.count k a + y.weight k a := by
  have := Count.countP_set (p := (·.refersTo k = some a)) y h
  simpa only [count, set, Handle.weight, decide_eq_true_eq] using this

theorem count_addGuards :
    (s.addGuards a guards).count k b = s.count k b + guards * (Handle.reference (some a)).weight k b := by
  simp only [count, addGuards, Handle.weight, List.countP_append, List.countP_replicate,
    decide_eq_true_eq]
  split <;> simp

@[simp]
theorem count_setState : (s.setState a fs).count k b = s.count k b := rfl

@[simp]
theorem set_states : (s.set i x).states = s.states := rfl

@[simp]
theorem set_fresh : (s.set i x).fresh = s.fresh := rfl

@[simp]
theorem set_fault : (s.set i x).fault = s.fault := rfl

-- A step of `GetFuture` gives a future, or it throws and changes nothing.
theorem getFuture_cases (h : (s.getFuture this).map (·.toOption.getD s) = some s₂) :
    (∃ a, s.handles[this]? = some (.promise (some a) false) ∧
      s₂ = s.call a (fun fs => .ok (fs.attachOne, 0)) fun s =>
        (s.set this (.promise (some a) true)).add (.future (some a))) ∨
    (∃ sh f, s.handles[this]? = some (.promise sh f) ∧ (sh = none ∨ f = true) ∧ s₂ = s) := by
  simp only [getFuture] at h
  split at h <;> cases h
  case h_1 hx => exact .inr ⟨_, _, hx, .inl rfl, rfl⟩
  case h_2 hx => exact .inr ⟨_, _, hx, .inr rfl, rfl⟩
  case h_3 hx => exact .inl ⟨_, hx, rfl⟩

theorem count_promise_le : s.count .promise a ≤ s.count .holder a := by
  refine List.countP_mono_left fun h _ hp => ?_
  cases h
  case promise => exact hp
  all_goals simp [Handle.refersTo] at hp

theorem count_reference_le : s.count .reference a ≤ s.count .holder a := by
  refine List.countP_mono_left fun h _ hp => ?_
  cases h
  case reference => exact hp
  all_goals simp [Handle.refersTo] at hp

end Config

-- How the operations change a shared state, together with the numbers of its holders, its promises
-- and its references.
inductive StateStep (fs : SharedState ε α κ ξ γ) :
    (h p r : Nat) → SharedState ε α κ ξ γ → (h p r : Nat) → Prop
  | attachOne       : StateStep fs h p r fs.attachOne (h + 1) p r
  | attachPromise   : StateStep fs h p r fs.attachPromise (h + 1) (p + 1) r
  | attachReference : StateStep fs h p r fs.attachReference (h + 1) p (r + 1)
  | detachOne :
    (fs.detachOne = .ok fs') → StateStep fs (h + 1) p r fs' h p r
  | detachReference :
    (fs.detachReference = .ok fs') → StateStep fs (h + 1) p (r + 1) fs' h p r
  | detachPromise {inline} :
    (fs.detachPromise inline = .ok (fs', guards)) →
    StateStep fs h (p + 1) r fs' (h + guards) p (r + guards)
  | setResult {inline} :
    (fs.setResult value inline = .ok (fs', guards)) →
    StateStep fs h p r { fs' with given := some value } (h + guards) p (r + guards)
  | setContinuation {inline} :
    (fs.setContinuation func inline = .ok (fs', guards)) →
    StateStep fs h p r fs' (h + guards) p (r + guards)
  | losePromise :
    StateStep fs (h + 1) (p + 1) r { fs with lostPromises := fs.lostPromises + 1 } h p r
  | loseFuture :
    StateStep fs (h + 1) p r { fs with lostFutures := fs.lostFutures + 1 } h p r

-- The counters of a shared state agree with the numbers of its holders, its promises, and its
-- references. Handles that a move assignment has overwritten have never been detached.
structure Counted (fs : SharedState ε α κ ξ γ) (h p r : Nat) : Prop where
  attached         : Counts fs.attached_ (fs.lostPromises + fs.lostFutures + h)
  promise_ref      : Counts fs.promise_ref_ (fs.lostPromises + p)
  continuation_ref : Counts fs.continuation_ref_ r

structure StateInv (fs : SharedState ε α κ ξ γ) (h p r : Nat) : Prop where
  counted : fs.deleted = false → Counted fs h p r
  deleted : fs.deleted → h = 0

-- The guards that a call leaves behind.
structure Guards (fs fs' : SharedState ε α κ ξ γ) (guards : Nat) : Prop where
  counted      : Counted fs h p r → Counted fs' (h + guards) p (r + guards)
  deleted      : fs'.deleted = fs.deleted
  given        : fs'.given = fs.given
  lostPromises : fs'.lostPromises = fs.lostPromises

section Members

variable {fs fs' : SharedState ε α κ ξ γ} {h p r : Nat} {inline : Bool}

theorem Counted.attachOne (c : Counted fs h p r) : Counted fs.attachOne (h + 1) p r :=
  ⟨c.attached.inc, c.promise_ref, c.continuation_ref⟩

theorem Counted.attachPromise (c : Counted fs h p r) :
    Counted fs.attachPromise (h + 1) (p + 1) r :=
  ⟨c.attached.inc, c.promise_ref.inc, c.continuation_ref⟩

theorem Counted.attachReference (c : Counted fs h p r) :
    Counted fs.attachReference (h + 1) p (r + 1) :=
  ⟨c.attached.inc, c.promise_ref, c.continuation_ref.inc⟩

theorem Counted.detachOne (c : Counted fs (h + 1) p r)
    (hb : fs.lostPromises + fs.lostFutures + (h + 1) < 256) :
    ∃ fs', fs.detachOne = .ok fs' ∧ StateInv fs' h p r := by
  have h₁ : fs.attached_ ≥ 1 := c.attached.one_le hb
  have h₂ : fs.attached_ = 1 ↔ fs.lostPromises + fs.lostFutures + h = 0 := c.attached.eq_one_iff hb
  refine ⟨_, if_pos h₁, fun _ => ⟨c.attached.dec, c.promise_ref, c.continuation_ref⟩, fun hd => ?_⟩
  have := h₂.mp (of_decide_eq_true hd)
  omega

theorem Counted.detachReference (c : Counted fs (h + 1) p (r + 1)) (hr : r + 1 < 256)
    (hb : fs.lostPromises + fs.lostFutures + (h + 1) < 256) :
    ∃ fs', fs.detachReference = .ok fs' ∧ StateInv fs' h p r := by
  have h₁ : fs.continuation_ref_ ≥ 1 := c.continuation_ref.one_le hr
  have c' : Counted { fs with continuation_ref_ := fs.continuation_ref_ - 1 } (h + 1) p r :=
    ⟨c.attached, c.promise_ref, c.continuation_ref.dec⟩
  obtain ⟨fs', he, i⟩ := c'.detachOne hb
  exact ⟨fs', (if_pos h₁).trans he, i⟩

theorem schedule_guards (fs : SharedState ε α κ ξ γ) (inline : Bool) (x : FutureState ε α κ ξ γ × Bool) :
    Guards fs (fs.schedule inline x).1 (fs.schedule inline x).2 := by
  have hc {h p r} (c : Counted fs h p r) : Counted { fs with toFutureState := x.1 } h p r :=
    ⟨c.attached, c.promise_ref, c.continuation_ref⟩
  simp only [SharedState.schedule, SharedState.scheduleContinuation]
  split
  case isFalse => exact ⟨hc, rfl, rfl, rfl⟩
  case isTrue =>
    split
    case isTrue  => exact ⟨fun c => (hc c).attachReference, rfl, rfl, rfl⟩
    case isFalse => exact ⟨fun c => (hc c).attachReference.attachReference, rfl, rfl, rfl⟩

@[simp]
theorem schedule_toFutureState (x : FutureState ε α κ ξ γ × Bool) :
    (fs.schedule inline x).1.toFutureState = x.1 := by
  simp only [SharedState.schedule, SharedState.scheduleContinuation]
  (repeat' split) <;> rfl

theorem schedule_eq {x : FutureState ε α κ ξ γ × Bool} (e : fs.schedule inline x = (fs', guards)) :
    Guards fs fs' guards ∧ fs'.toFutureState = x.1 := by
  have hg := schedule_guards fs inline x
  have hx : (fs.schedule inline x).1.toFutureState = x.1 := schedule_toFutureState x
  rw [e] at hg hx
  exact ⟨hg, hx⟩

theorem setResult_ok (e : fs.setResult value inline = .ok (fs', guards)) :
    Guards fs fs' guards ∧ fs.hasResult = false ∧ fs'.hasResult ∧ fs'.try_value_ = value := by
  cases hr : fs.hasResult
  case true => simp [SharedState.setResult, FutureState.setResult, hr, Except.map] at e
  case false =>
    rw [SharedState.setResult, FutureState.setResult_eq value hr] at e
    obtain ⟨hg, hx⟩ := schedule_eq (Except.ok.inj e)
    refine ⟨hg, rfl, ?_, by rw [hx]⟩
    rw [FutureState.hasResult, hx]
    cases fs.hasContinuation <;> simp

theorem setContinuation_ok (e : fs.setContinuation func inline = .ok (fs', guards)) :
    Guards fs fs' guards ∧ fs'.hasResult = fs.hasResult ∧ fs'.try_value_ = fs.try_value_ := by
  cases hc : fs.hasContinuation
  case true => simp [SharedState.setContinuation, FutureState.setContinuation, hc, Except.map] at e
  case false =>
    rw [SharedState.setContinuation, FutureState.setContinuation_eq func hc] at e
    obtain ⟨hg, hx⟩ := schedule_eq (Except.ok.inj e)
    refine ⟨hg, ?_, by rw [hx]⟩
    rw [FutureState.hasResult, hx]
    cases hr : fs.hasResult <;> simp

theorem setResult_available (fs : SharedState ε α κ ξ γ) (value : Try ε α) (inline : Bool) (h : fs.hasResult = false) :
    ∃ fs' guards, fs.setResult value inline = .ok (fs', guards) :=
  ⟨_, _, by rw [SharedState.setResult, FutureState.setResult_eq value h]; rfl⟩

-- When the last promise is detached, the state has a result afterwards.
theorem detachPromise_ok (e : fs.detachPromise inline = .ok (fs', guards)) :
    Guards { fs with promise_ref_ := fs.promise_ref_ - 1 } fs' guards ∧
    ((fs.hasResult = false ∧ fs.promise_ref_ = 1 ∧ fs'.hasResult ∧
        fs'.try_value_ = SharedState.brokenPromise) ∨
      ((fs.hasResult ∨ fs.promise_ref_ ≠ 1) ∧ fs'.toFutureState = fs.toFutureState)) := by
  simp only [SharedState.detachPromise] at e
  split at e
  case isFalse => contradiction
  case isTrue =>
    split at e
    case isTrue h =>
      simp only [Bool.and_eq_true, Bool.not_eq_true', decide_eq_true_eq] at h
      obtain ⟨fs₁, guards₁, hs⟩ := setResult_available { fs with promise_ref_ := fs.promise_ref_ - 1 }
        SharedState.brokenPromise inline h.left
      rw [hs] at e
      cases e
      obtain ⟨hg, _, hr⟩ := setResult_ok hs
      exact ⟨hg, .inl ⟨h.left, h.right, hr⟩⟩
    case isFalse h =>
      cases e
      refine ⟨⟨fun c => c, rfl, rfl, rfl⟩, .inr ⟨?_, rfl⟩⟩
      simpa [or_iff_not_imp_left] using h

theorem Counted.detachPromise (c : Counted fs h (p + 1) r) (hp : fs.lostPromises + (p + 1) < 2 ^ 64)
    (inline : Bool) : ∃ fs' guards, fs.detachPromise inline = .ok (fs', guards) := by
  have h₁ : fs.promise_ref_ ≥ 1 := c.promise_ref.one_le hp
  simp only [SharedState.detachPromise, h₁, if_true]
  split
  case isFalse => exact ⟨_, _, rfl⟩
  case isTrue h =>
    simp only [Bool.and_eq_true, Bool.not_eq_true'] at h
    obtain ⟨fs₁, guards, hs⟩ := setResult_available { fs with promise_ref_ := fs.promise_ref_ - 1 }
      SharedState.brokenPromise inline h.left
    exact ⟨fs₁, guards, by rw [hs]⟩

theorem StateStep.inv (e : StateStep fs h p r fs' h' p' r') (i : StateInv fs h p r)
    (hd : fs.deleted = false) (hb : fs.lostPromises + fs.lostFutures + h < 256) (hr : r ≤ h) :
    StateInv fs' h' p' r' := by
  have c := i.counted hd
  cases e
  case attachOne       => exact ⟨fun _ => c.attachOne, fun h => absurd (hd ▸ h) nofun⟩
  case attachPromise   => exact ⟨fun _ => c.attachPromise, fun h => absurd (hd ▸ h) nofun⟩
  case attachReference => exact ⟨fun _ => c.attachReference, fun h => absurd (hd ▸ h) nofun⟩
  case detachOne e =>
    obtain ⟨_, he, i⟩ := c.detachOne hb
    cases he.symm.trans e
    exact i
  case detachReference e =>
    obtain ⟨_, he, i⟩ := c.detachReference (by omega) hb
    cases he.symm.trans e
    exact i
  case detachPromise e =>
    have hg := (detachPromise_ok e).left
    have c' : Counted { fs with promise_ref_ := fs.promise_ref_ - 1 } h p' r :=
      ⟨c.attached, c.promise_ref.dec, c.continuation_ref⟩
    exact ⟨fun _ => hg.counted c', fun h => absurd (hd ▸ hg.deleted ▸ h) nofun⟩
  case setResult e =>
    have hg := (setResult_ok e).left
    have c' := hg.counted c
    exact ⟨fun _ => ⟨c'.attached, c'.promise_ref, c'.continuation_ref⟩,
      fun h => absurd (hd ▸ hg.deleted ▸ h) nofun⟩
  case setContinuation e =>
    have hg := (setContinuation_ok e).left
    exact ⟨fun _ => hg.counted c, fun h => absurd (hd ▸ hg.deleted ▸ h) nofun⟩
  case losePromise =>
    refine ⟨fun _ => ⟨c.attached.congr ?_, c.promise_ref.congr ?_, c.continuation_ref⟩,
      fun h => absurd (hd ▸ h) nofun⟩ <;> (dsimp only; omega)
  case loseFuture =>
    refine ⟨fun _ => ⟨c.attached.congr ?_, c.promise_ref, c.continuation_ref⟩,
      fun h => absurd (hd ▸ h) nofun⟩
    dsimp only
    omega

theorem detachOne_ok (e : fs.detachOne = .ok fs') :
    ∃ attached_ deleted, fs' = { fs with attached_, deleted } := by
  simp only [SharedState.detachOne] at e
  split at e <;> cases e
  exact ⟨_, _, rfl⟩

theorem detachReference_ok (e : fs.detachReference = .ok fs') :
    ∃ attached_ continuation_ref_ deleted, fs' = { fs with attached_, continuation_ref_, deleted } := by
  simp only [SharedState.detachReference] at e
  split at e
  case isTrue =>
    obtain ⟨_, _, rfl⟩ := detachOne_ok e
    exact ⟨_, _, _, rfl⟩
  case isFalse => contradiction

-- What the future of a shared state is told: without a result, there is still a promise.
structure Told (fs : SharedState ε α κ ξ γ) (p : Nat) : Prop where
  value   : fs.hasResult → fs.try_value_ = fs.given.getD SharedState.brokenPromise
  pending : fs.hasResult = false → fs.given = none ∧ fs.lostPromises = 0 ∧ 0 < p

theorem StateStep.told (e : StateStep fs h p r fs' h' p' r') (c : Counted fs h p r) (t : Told fs p)
    (hp : fs.lostPromises + p < 2 ^ 64) (hl : fs.hasResult ∨ fs'.lostPromises = fs.lostPromises) :
    Told fs' p' := by
  cases e
  case attachOne       => exact ⟨t.value, t.pending⟩
  case attachReference => exact ⟨t.value, t.pending⟩
  case loseFuture      => exact ⟨t.value, t.pending⟩
  case attachPromise =>
    refine ⟨t.value, fun hr => ?_⟩
    obtain ⟨h₁, h₂, _⟩ := t.pending hr
    exact ⟨h₁, h₂, Nat.succ_pos _⟩
  case detachOne e =>
    obtain ⟨_, _, rfl⟩ := detachOne_ok e
    exact ⟨t.value, t.pending⟩
  case detachReference e =>
    obtain ⟨_, _, _, rfl⟩ := detachReference_ok e
    exact ⟨t.value, t.pending⟩
  case losePromise =>
    cases hr : fs.hasResult
    case true  => exact ⟨t.value, fun h => absurd (hr.symm.trans h) nofun⟩
    case false => simp [hr] at hl
  case detachPromise e =>
    obtain ⟨hg, ⟨hr, _, hr', hv⟩ | ⟨hr, hfs⟩⟩ := detachPromise_ok e
    · have hn := (t.pending hr).left
      exact ⟨fun _ => by simp [hv, hg.given, hn], fun h => absurd (hr'.symm.trans h) nofun⟩
    · refine ⟨fun h => ?_, fun h => ?_⟩
      · rw [hg.given, hfs]
        exact t.value (hfs ▸ h)
      · have h : fs.hasResult = false := hfs ▸ h
        obtain ⟨h₁, h₂, _⟩ := t.pending h
        have h₃ : fs.promise_ref_ = 1 ↔ fs.lostPromises + p' = 0 := c.promise_ref.eq_one_iff hp
        simp only [h, Bool.false_eq_true, false_or, ne_eq, h₃] at hr
        exact ⟨hg.given.trans h₁, hg.lostPromises.trans h₂, by omega⟩
  case setResult e =>
    obtain ⟨_, _, hr, hv⟩ := setResult_ok e
    exact ⟨fun _ => hv, fun h => absurd (hr.symm.trans h) nofun⟩
  case setContinuation e =>
    obtain ⟨hg, hr, hv⟩ := setContinuation_ok e
    refine ⟨fun h => ?_, fun h => ?_⟩
    · rw [hv, hg.given]
      exact t.value (hr ▸ h)
    · obtain ⟨h₁, h₂, h₃⟩ := t.pending (hr ▸ h)
      exact ⟨hg.given.trans h₁, hg.lostPromises.trans h₂, h₃⟩

end Members

end Handles
end AsyncSimple
