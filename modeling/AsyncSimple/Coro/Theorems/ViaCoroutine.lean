import AsyncSimple.Coro.ViaCoroutine

open Transition

namespace AsyncSimple
namespace ViaAsyncAwaiter

open Lazy (SuspendType)
open ViaCoroutine (Call Method)

section

variable {ξ χ : Type}

def Stage.via : Stage ξ χ → Option (ViaCoroutine ξ χ)
  | ready _ via | suspending _ via | suspended via => some via
  | _                                              => none

-- The await and the context that are checked out at the moment.
def Coroutine.held (c : Coroutine ξ χ) : List (Nat × χ) :=
  match c.stage with
  | .suspending _ via | .suspended via => [(c.awaits, via.context)]
  | _                                  => []

-- The `ViaCoroutine` of an await of the coroutine has executor `e`.
def Coroutine.Bound (c : Coroutine ξ χ) (e : ξ) : Prop :=
  ∀ via ∈ c.stage.via, via.executor = some e

-- What a step of coroutine `i`, which is bound to `e`, does to the contexts.
inductive Turn (e : ξ) (i : Nat) (c c' : Coroutine ξ χ) : List (Call ξ χ) → Prop
  | kept : (c'.held = c.held) → (c'.thrown = c.thrown) → Turn e i c c' []
  | checkout : (c.held = []) → (c'.held = [(k, x)]) → (c'.thrown = c.thrown) →
    Turn e i c c' [⟨.checkout, e, i, k, x⟩]
  | checkin : (c.held = [(k, x)]) → (c'.held = []) → (c'.thrown = c.thrown) →
    Turn e i c c' [⟨.checkin, e, i, k, x⟩]
  | lost : (c.held = [p]) → (c'.held = []) → (c'.thrown = c.thrown + 1) → Turn e i c c' []

variable {m : Setup ξ χ} {c c' : Coroutine ξ χ} {e : ξ} {i : Nat} {calls : List (Call ξ χ)}

theorem Coroutine.held_of_running (h : c.stage = .running) : c.held = [] := by
  simp [held, h]

theorem Coroutine.held_of_suspending (h : c.stage = .suspending type via) : c.held = [(c.awaits, via.context)] := by
  simp [held, h]

theorem Coroutine.Bound.of_running (h : c.stage = .running) : c.Bound e := by
  simp [Bound, Stage.via, h]

theorem checkin_of_bound {via : ViaCoroutine ξ χ} (hv : via.executor = some e) :
    via.checkin i k = [⟨.checkin, e, i, k, via.context⟩] := by
  simp [ViaCoroutine.checkin, hv]

theorem Turn.of_finalAwaiter (hh : c.held = [(c.awaits, via.context)]) (hv : via.executor = some e)
    (h : c.finalAwaiter i via accept = (c', calls)) : Turn e i c c' calls ∧ c'.Bound e := by
  simp only [Coroutine.finalAwaiter, hv, checkin_of_bound hv] at h
  cases h
  refine ⟨.checkin hh ?_ rfl, ?_⟩ <;> cases accept <;> simp [Coroutine.held, Coroutine.Bound, Stage.via]

theorem Turn.of_step (hm : m.executor i = some e) (hb : c.Bound e)
    (h : m.stepCoroutine i c a = some (c', calls)) : Turn e i c c' calls ∧ c'.Bound e := by
  have hv : ∀ {via}, c.stage.via = some via → via.executor = some e := fun h => hb _ h
  cases a <;> simp only [Setup.stepCoroutine] at h
  case await =>
    split at h <;> cases h
    case h_1 hs =>
    exact ⟨.kept (by simp [Coroutine.held, hs]) rfl, by simp [Coroutine.Bound, Stage.via, ViaCoroutine.create, hm]⟩
  case ready | readyThrows =>
    split at h <;> cases h
    case h_1 hs =>
    exact ⟨.kept (by simp [Coroutine.held, hs]) rfl, .of_running rfl⟩
  case notReady =>
    split at h <;> try contradiction
    case h_1 hs =>
    have hv := hv (by rw [hs]; rfl)
    simp only [ViaCoroutine.getWrappedContinuation, hv] at h
    cases h
    exact ⟨.checkout (by simp [Coroutine.held, hs]) rfl rfl, by simp [Coroutine.Bound, Stage.via]⟩
  case suspended =>
    split at h <;> cases h
    case h_1 hs =>
    have hv := hv (by rw [hs]; rfl)
    exact ⟨.kept (by simp [Coroutine.held, hs]) rfl, by simp [Coroutine.Bound, Stage.via, hv]⟩
  case notSuspended =>
    split at h <;> cases h
    case h_1 hs =>
    rw [checkin_of_bound (hv (by rw [hs]; rfl))]
    exact ⟨.checkin (by simp [Coroutine.held, hs]) rfl rfl, .of_running rfl⟩
  case suspendThrows =>
    split at h <;> cases h
    case h_1 hs =>
    exact ⟨.lost (Coroutine.held_of_suspending hs) rfl rfl, .of_running rfl⟩
  case resume accept =>
    split at h <;> try contradiction
    case h_1 hs | h_2 hs =>
    exact Turn.of_finalAwaiter (by simp only [Coroutine.held, hs]) (hv (by rw [hs]; rfl)) (Option.some.inj h)
  case runTask =>
    split at h <;> cases h
    case h_1 hs =>
    exact ⟨.kept (by simp [Coroutine.held, hs]) rfl, .of_running rfl⟩

theorem coroutine_of_checkin {via : ViaCoroutine ξ χ} (h : x ∈ via.checkin i k) : x.coroutine = i := by
  cases hv : via.executor <;> simp [ViaCoroutine.checkin, hv] at h
  exact h ▸ rfl

theorem coroutine_of_finalAwaiter (h : c.finalAwaiter i via accept = (c', calls)) (hx : x ∈ calls) :
    x.coroutine = i := by
  cases hv : via.executor <;> simp only [Coroutine.finalAwaiter, hv] at h <;> cases h
  case none => simp at hx
  case some => exact coroutine_of_checkin hx

theorem coroutine_of_step (h : m.stepCoroutine i c a = some (c', calls)) (hx : x ∈ calls) : x.coroutine = i := by
  cases a <;> simp only [Setup.stepCoroutine] at h
  case notReady =>
    split at h <;> try contradiction
    case h_1 via _ =>
    cases hv : via.executor <;> simp only [ViaCoroutine.getWrappedContinuation, hv] at h <;> cases h
    case none => simp at hx
    case some =>
      obtain rfl := List.mem_singleton.mp hx
      rfl
  case notSuspended =>
    split at h <;> cases h
    exact coroutine_of_checkin hx
  case resume =>
    split at h <;> try contradiction
    all_goals exact coroutine_of_finalAwaiter (Option.some.inj h) hx
  all_goals
    split at h <;> cases h
    simp at hx

end

variable {ξ χ : Type} [DecidableEq ξ] {m : Setup ξ χ} {s s₁ s₂ : Config ξ χ} {e : ξ} {i : Nat}

-- What coroutine `i` holds is checked out and not yet checked in, and beyond that only what was held when
-- an `await_suspend` threw.
structure Ledger (e : ξ) (i : Nat) (s : Config ξ χ) : Prop where
  bound : (s.coroutines i).Bound e
  sub   : List.Sublist (s.made .checkin e i ++ (s.coroutines i).held) (s.made .checkout e i)
  count : (s.made .checkout e i).length =
    (s.made .checkin e i).length + (s.coroutines i).held.length + (s.coroutines i).thrown

theorem made_append (s : Config ξ χ) (method : Method) (coroutines : Nat → Coroutine ξ χ) :
    (Config.mk coroutines (s.calls ++ calls)).made method e i =
    s.made method e i ++ calls.filterMap (·.made method e i) := by
  simp [Config.made]

theorem made_other {calls : List (Call ξ χ)} (h : ∀ c ∈ calls, c.coroutine = j) (hn : i ≠ j) (method : Method) :
    calls.filterMap (·.made method e i) = [] := by
  simp only [List.filterMap_eq_nil_iff]
  intro c hc
  simp [Call.made, h c hc, hn.symm]

@[simp]
theorem made_self {method method' : Method} {k : Nat} {x : χ} :
    (Call.mk method' e i k x).made method e i = if method' = method then some (k, x) else none := by
  simp [Call.made]

theorem Ledger.turn {c : Coroutine ξ χ} {calls : List (Call ξ χ)} (l : Ledger e i s) (hc : s.coroutines i = c)
    (t : Turn e i c c' calls) (hb : c'.Bound e) :
    Ledger e i ⟨Function.update s.coroutines i c', s.calls ++ calls⟩ := by
  have sub   := l.sub
  have count := l.count
  rw [hc] at sub count
  refine ⟨by simpa using hb, ?sub, ?count⟩ <;> simp only [made_append, Function.update_self] <;> cases t
  case sub.kept hh _          => simpa [hh] using sub
  case sub.checkout hh hh' _  => simpa [hh, hh'] using sub
  case sub.checkin hh hh' _   => simpa [hh, hh'] using sub
  case sub.lost hh hh' _      => simpa [hh'] using (List.sublist_append_left _ _).trans sub
  case count.kept hh ht       => simpa [hh, ht] using count
  case count.checkout hh hh' ht | count.checkin hh hh' ht | count.lost hh hh' ht =>
    simp only [hh] at count
    simp [hh', ht]
    simp at count
    omega

theorem Ledger.reachable (hm : m.executor i = some e) (hr : m.system.Reachable s) : Ledger e i s := by
  refine hr.invariant ⟨.of_running rfl, by simp [Setup.system, Config.made, Coroutine.held],
    by simp [Setup.system, Config.made, Coroutine.held]⟩ fun {s₁ a s₂} l h => ?_
  simp only [Setup.system, Option.map_eq_some_iff] at h
  obtain ⟨⟨c', calls⟩, h, rfl⟩ := h
  by_cases hi : i = a.1
  case pos =>
    subst hi
    have := Turn.of_step hm l.bound h
    exact l.turn rfl this.left this.right
  case neg =>
    have hn := made_other (e := e) (fun _ => coroutine_of_step h) hi
    obtain ⟨bound, sub, count⟩ := l
    constructor <;> simp only [made_append, hn, List.append_nil, Function.update_of_ne hi] <;> assumption

theorem balanced_iff (hm : m.executor i = some e) (hr : m.system.Reachable s)
    (hs : (s.coroutines i).stage = .running) : s.Balanced e i ↔ (s.coroutines i).thrown = 0 := by
  obtain ⟨_, sub, count⟩ := Ledger.reachable hm hr
  rw [Coroutine.held_of_running hs] at sub count
  simp only [List.append_nil, List.length_nil, Nat.add_zero] at sub count
  constructor
  case mp =>
    intro h
    have := h.count
    omega
  case mpr =>
    intro h
    exact ⟨by omega, fun _ _ h => sub.subset h⟩

def intSetup : Setup Nat Nat where
  executor _   := some 1
  kNullContext := 0

-- A coroutine awaits an awaiter that resumes it later, and then one whose `await_suspend` returns false.
theorem balanced_twice :
    ∃ s, (s.made .checkout 1 0 = [(1, 5), (2, 6)] ∧ s.Balanced 1 0) ∧ intSetup.system.Reachable s := by
  obtain ⟨s, hr, hs⟩ := intSetup.system.exists_reachable
    ([.await .void, .notReady 5, .suspended, .resume true, .runTask, .await .bool, .notReady 6, .notSuspended].map
      fun a => (0, a))
    (p := fun s => (s.coroutines 0).stage = .running ∧ (s.coroutines 0).thrown = 0 ∧
      s.made .checkout 1 0 = [(1, 5), (2, 6)]) (by decide)
  obtain ⟨hs, ht, hm⟩ := of_decide_eq_true hs
  exact ⟨s, ⟨hm, (balanced_iff rfl hr hs).mpr ht⟩, hr⟩

-- The `await_suspend` of its awaiter throws.
theorem checkout_lost :
    ∃ s, intSetup.system.Reachable s ∧ (s.coroutines 0).stage = .running ∧ s.made .checkout 1 0 = [(1, 5)] ∧
      s.made .checkin 1 0 = [] ∧ ¬ s.Balanced 1 0 := by
  obtain ⟨s, hr, hs⟩ := intSetup.system.exists_reachable
    ([.await .void, .notReady 5, .suspendThrows].map fun a => (0, a))
    (p := fun s => (s.coroutines 0).stage = .running ∧ s.made .checkout 1 0 = [(1, 5)] ∧
      s.made .checkin 1 0 = []) (by decide)
  obtain ⟨hs, ho, hi⟩ := of_decide_eq_true hs
  exact ⟨s, hr, hs, ho, hi, fun h => by simpa [ho, hi] using h.count⟩

end ViaAsyncAwaiter
end AsyncSimple
