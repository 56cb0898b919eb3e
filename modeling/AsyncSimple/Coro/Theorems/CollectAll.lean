import AsyncSimple.Coro.CollectAll
import AsyncSimple.Coro.Theorems.CountEvent

open Transition

namespace AsyncSimple
namespace CollectAllAwaiter

variable {n : Nat} {ε α κ ξ : Type}

namespace StarterPc

-- The starter and the children as parties of the countdown.
def down : StarterPc n κ → DownPc κ
  | .finish pc => pc
  | _          => .down

-- The children below this number have been launched.
def next : StarterPc n κ → Nat
  | .loop i   => i
  | .bind i   => i
  | .launch i => i
  | _         => n

def Registered (pc : StarterPc n κ) : Prop :=
  ∃ pc', pc = .finish pc'

end StarterPc

def ChildPc.down : ChildPc ε α κ → DownPc κ
  | .finish pc => pc
  | _          => .down

def Config.countdown (s : Config n ε α κ ξ) : Countdown (Option (Fin n)) κ where
  event   := s.event
  resumed := s.resumed
  pc
    | none   => s.starter.down
    | some i => (s.child i).down

variable {m : Setup n κ ξ} {s s₁ s₂ : Config n ε α κ ξ} {i : Fin n}

-- What is known about a child: once it has called back, its result is in its place of the output.
def Stored (s : Config n ε α κ ξ) (i : Fin n) : ChildPc ε α κ → Prop
  | .callback t => s.produced i = some t ∧ t.available
  | .finish _   => ∃ t, s.produced i = some t ∧ t.available ∧ s.output[i.val]? = some t
  | _           => True

structure Inv (m : Setup n κ ξ) (s : Config n ε α κ ξ) : Prop where
  countdown : s.countdown.Inv m.continuation s.starter.Registered
  length    : s.output.length = n
  stored    : ∀ i, Stored s i (s.child i)
  launched  : ∀ i : Fin n, s.child i = .notStarted ↔ s.starter.next ≤ i
  late      : s.late = false

theorem Config.countdown_goto (s : Config n ε α κ ξ) (pc : StarterPc n κ) :
    (s.goto pc).countdown = { s.countdown with pc := Function.update s.countdown.pc none pc.down } := by
  simp only [countdown, goto, Countdown.mk.injEq, true_and]
  funext p
  cases p <;> simp [Function.update]

theorem Config.countdown_setChild (s : Config n ε α κ ξ) (i : Fin n) (pc : ChildPc ε α κ) :
    (s.setChild i pc).countdown =
      { s.countdown with pc := Function.update s.countdown.pc (some i) pc.down } := by
  simp only [countdown, setChild, Countdown.mk.injEq, true_and]
  funext p
  cases p
  case none   => rfl
  case some j => by_cases h : j = i <;> simp [Function.update, h]

theorem Config.countdown_goto_down {pc : StarterPc n κ} (h₁ : s.starter.down = .down)
    (h₂ : pc.down = .down) : (s.goto pc).countdown = s.countdown := by
  have h : s.countdown.pc none = .down := h₁
  rw [countdown_goto, h₂, ← h, Function.update_eq_self]

theorem Config.countdown_setChild_down {pc : ChildPc ε α κ} (h₁ : (s.child i).down = .down)
    (h₂ : pc.down = .down) : (s.setChild i pc).countdown = s.countdown := by
  have h : s.countdown.pc (some i) = .down := h₁
  rw [countdown_setChild, h₂, ← h, Function.update_eq_self]

namespace Inv

theorem init : Inv m (m.init : Config n ε α κ ξ) where
  countdown := by
    refine (Countdown.Inv.init (fun p => ?_) (by simp [Config.countdown, Setup.init, CountEvent.new]) rfl).mono ?_
    · cases p <;> rfl
    · simp [StarterPc.Registered, Setup.init]
  length   := by simp [Setup.init]
  stored _ := trivial
  launched := fun _ => iff_of_true rfl (Nat.zero_le _)
  late     := rfl

-- While a party is not done yet, the coroutine has not been resumed, so that using the awaiter is
-- not too late.
theorem touch (i : Inv m s) (h : s.countdown.pc p ≠ .done) : s.touch = s := by
  have hr : s.resumed = [] := by
    by_contra hr
    exact h (i.countdown.done_of_resumed hr p)
  simp only [Config.touch, hr, List.isEmpty_nil, Bool.not_true, Bool.or_false]
  rw [← hr]

-- A step of the starter that does not count down yet.
theorem goto {pc : StarterPc n κ} (i : Inv m s) (h₁ : s.starter.down = .down) (h₂ : pc.down = .down)
    (hr : ¬ pc.Registered) (hn : ∀ k : Fin n, s.starter.next ≤ k ↔ pc.next ≤ k) :
    Inv m (s.goto pc) where
  countdown := Config.countdown_goto_down h₁ h₂ ▸ i.countdown.mono fun h => absurd h hr
  length    := i.length
  stored    := i.stored
  launched k := (i.launched k).trans (hn k)
  late      := i.late

theorem stored_update {pc : ChildPc ε α κ} (hs : ∀ k, Stored s k (s.child k)) (hp : Stored s j pc) (k : Fin n) :
    Stored s k (Function.update s.child j pc k) := by
  by_cases h : k = j
  · subst h
    rwa [Function.update_self]
  · rw [Function.update_of_ne h]
    exact hs k

theorem launched_update {pc : ChildPc ε α κ} (i : Inv m s) (hs : s.child j ≠ .notStarted)
    (hn : pc ≠ .notStarted) (k : Fin n) :
    Function.update s.child j pc k = .notStarted ↔ s.starter.next ≤ k := by
  by_cases h : k = j
  · subst h
    rw [Function.update_self]
    exact iff_of_false hn fun h => hs ((i.launched k).mpr h)
  · rw [Function.update_of_ne h]
    exact i.launched k

-- A step of a child that does not count down yet.
theorem setChild {pc : ChildPc ε α κ} (i : Inv m s) (h₁ : (s.child j).down = .down)
    (h₂ : pc.down = .down) (hp : Stored s j pc) (hs : s.child j ≠ .notStarted) (hn : pc ≠ .notStarted) :
    Inv m (s.setChild j pc) where
  countdown := Config.countdown_setChild_down h₁ h₂ ▸ i.countdown
  length    := i.length
  stored    := stored_update i.stored hp
  launched  := i.launched_update hs hn
  late      := i.late

-- The step of the starter that launches a child.
theorem launch {pc : ChildPc ε α κ} (i : Inv m s) (hs : s.starter = .launch j) (h₂ : pc.down = .down)
    (hp : Stored s j pc) (hn : pc ≠ .notStarted) : Inv m ((s.setChild j pc).goto (.loop (j + 1))) where
  countdown := by
    have hj : s.child j = .notStarted := (i.launched j).mpr (by rw [hs]; exact Nat.le_refl _)
    have h₁ : (s.child j).down = .down := by rw [hj]; rfl
    have h₃ : (s.setChild j pc).starter.down = .down := by
      change s.starter.down = _
      rw [hs]
      rfl
    rw [Config.countdown_goto_down h₃ rfl, Config.countdown_setChild_down h₁ h₂]
    exact i.countdown.mono (by simp [StarterPc.Registered, Config.goto])
  length   := i.length
  stored   := stored_update i.stored hp
  launched k := by
    change Function.update s.child j pc k = .notStarted ↔ j.val + 1 ≤ k
    have hk := i.launched k
    simp only [hs, StarterPc.next] at hk
    by_cases h : k = j
    · subst h
      simp [hn]
    · rw [Function.update_of_ne h, hk]
      omega
  late := i.late

theorem setInput (i : Inv m s) (input : Fin n → Option ξ) : Inv m { s with input } :=
  ⟨i.countdown, i.length, i.stored, i.launched, i.late⟩

theorem down {pc pc' : DownPc κ} (i : Inv m s₁) (hp : s₁.countdown.pc p = pc)
    (h : s₁.down pc = some (s₂, pc')) :
    pc.step s₁.event s₁.resumed = some (s₂.event, s₂.resumed, pc') ∧
    s₂ = { s₁ with event := s₂.event, resumed := s₂.resumed } := by
  simp only [Config.down] at h
  split at h
  case h_1 => contradiction
  case h_2 event resumed pc'' hs =>
    rw [hs]
    cases pc <;> simp only [Option.some.injEq, Prod.mk.injEq] at h <;> obtain ⟨rfl, rfl⟩ := h
    case resume =>
      cases hs
      exact ⟨rfl, rfl⟩
    case done => contradiction
    all_goals
      rw [i.touch (p := p) (by rw [hp]; nofun), DownPc.step_resumed hs nofun]
      exact ⟨rfl, rfl⟩

theorem step_starter (i : Inv m s₁) (h : m.stepStarter s₁ = some s₂) : Inv m s₂ := by
  have ht (hd : s₁.starter.down = .down) : s₁.touch = s₁ :=
    i.touch (p := none) (by simp [Config.countdown, hd])
  cases hp : s₁.starter <;> simp only [Setup.stepStarter, hp] at h
  case loop j =>
    rw [hp] at ht
    split at h <;> cases h <;> rw [ht rfl]
    case isTrue hj =>
      exact i.goto (by rw [hp]; rfl) rfl (by simp [StarterPc.Registered]) (by simp [hp, StarterPc.next])
    case isFalse hj =>
      refine i.goto (by rw [hp]; rfl) rfl (by simp [StarterPc.Registered]) fun k => ?_
      simp only [hp, StarterPc.next]
      omega
  case bind j =>
    cases h
    rw [hp] at ht
    rw [ht rfl]
    exact i.setInput _ |>.goto (by rw [hp]; rfl) rfl (by simp [StarterPc.Registered]) (by simp [hp, StarterPc.next])
  case launch j =>
    rw [hp] at ht
    split at h <;> cases h <;> rw [ht rfl]
    case isTrue  => exact i.launch hp rfl trivial nofun
    case isFalse => exact i.launch hp rfl trivial nofun
  case setAwaitingCoroutine =>
    cases h
    rw [hp] at ht
    rw [ht rfl]
    have hr : ¬ s₁.starter.Registered := by simp [hp, StarterPc.Registered]
    refine ⟨?_, i.length, i.stored, fun k => ?_, i.late⟩
    · have hc := (i.countdown.mono False.elim).register
      rw [Config.countdown_goto_down (by simp [hp, StarterPc.down]) rfl]
      exact hc.mono fun _ => trivial
    · simpa [hp, StarterPc.next, Config.goto] using i.launched k
  case finish pc =>
    obtain ⟨⟨s, pc'⟩, hd, rfl⟩ := Option.map_eq_some_iff.mp h
    have hn : s₁.countdown.pc none = pc := by simp [Config.countdown, hp, StarterPc.down]
    obtain ⟨hs, heq⟩ := i.down hn hd
    have hreg : s₁.starter.Registered := ⟨pc, hp⟩
    have hc := i.countdown.step (hn ▸ hs) (.inl hreg)
    rw [heq]
    refine ⟨?_, i.length, i.stored, fun k => ?_, i.late⟩
    · rw [Config.countdown_goto]
      exact hc.mono fun _ => hreg
    · simpa [hp, StarterPc.next, Config.goto] using i.launched k

theorem step_child (i : Inv m s₁) (h : Setup.stepChild s₁ j = some s₂) : Inv m s₂ := by
  cases hp : s₁.child j <;> simp only [Setup.stepChild, hp] at h
  case callback t =>
    cases h
    have hj := i.stored j
    rw [hp] at hj
    have hlt : j.val < s₁.output.length := by
      rw [i.length]
      exact j.isLt
    rw [i.touch (p := some j) (by simp [Config.countdown, hp, ChildPc.down])]
    refine ⟨?_, by simpa [Config.setChild] using i.length, fun k => ?_, ?_, i.late⟩
    · rw [Config.countdown_setChild_down (by simp [hp, ChildPc.down]) rfl]
      exact i.countdown
    · have hf : Stored { s₁ with output := s₁.output.set j t } j (.finish .down) :=
        ⟨t, hj.1, hj.2, by simp [hlt]⟩
      refine stored_update (s := { s₁ with output := s₁.output.set j t }) (fun k => ?_) hf k
      have hk := i.stored k
      cases hc : s₁.child k <;> rw [hc] at hk
      case finish =>
        obtain ⟨t', h₁, h₂, h₃⟩ := hk
        have hne : j.val ≠ k.val := by
          intro h
          rw [Fin.ext h, hc] at hp
          contradiction
        exact ⟨t', h₁, h₂, by rw [List.getElem?_set_ne hne, h₃]⟩
      all_goals exact hk
    · exact i.launched_update (by simp [hp]) nofun
  case finish pc =>
    obtain ⟨⟨s, pc'⟩, hd, rfl⟩ := Option.map_eq_some_iff.mp h
    have hn : s₁.countdown.pc (some j) = pc := by simp [Config.countdown, hp, ChildPc.down]
    obtain ⟨hs, heq⟩ := i.down hn hd
    have hreg : s₁.starter.Registered ∨ ∃ q, s₁.countdown.pc q = .down ∧ q ≠ some j := by
      by_cases hr : s₁.starter.Registered
      · exact .inl hr
      · refine .inr ⟨none, ?_, by simp⟩
        cases hst : s₁.starter
        case finish => exact absurd ⟨_, hst⟩ hr
        all_goals simp [Config.countdown, hst, StarterPc.down]
    have hc := i.countdown.step (hn ▸ hs) hreg
    rw [heq]
    have hj := i.stored j
    rw [hp] at hj
    refine ⟨?_, i.length, stored_update i.stored hj, fun k => ?_, i.late⟩
    · rw [Config.countdown_setChild]
      exact hc
    · exact i.launched_update (by simp [hp]) (show ChildPc.finish pc' ≠ .notStarted by simp) k
  all_goals contradiction

theorem step (i : Inv m s₁) (h : m.system.step s₁ a = some s₂) : Inv m s₂ := by
  cases a
  case starter => exact i.step_starter h
  case child   => exact i.step_child h
  case runTask j =>
    simp only [Setup.system, Setup.runTask] at h
    split at h <;> cases h
    case h_1 hp =>
      rw [i.touch (p := some j) (by simp [Config.countdown, hp, ChildPc.down])]
      exact i.setChild (by rw [hp]; rfl) rfl trivial (by simp [hp]) nofun
  case complete j t =>
    simp only [Setup.system, Setup.complete] at h
    split at h
    case h_2 => contradiction
    case h_1 hp =>
      split at h <;> cases h
      case isTrue ha =>
        refine ⟨?_, i.length, fun k => ?_, i.launched_update (by simp [hp]) nofun, i.late⟩
        · rw [Config.countdown_setChild_down (by simp [hp, ChildPc.down]) rfl]
          exact i.countdown
        · let s : Config n ε α κ ξ := { s₁ with produced := Function.update s₁.produced j (some t) }
          have ht : Stored s j (.callback t) := ⟨Function.update_self .., ha⟩
          refine stored_update (s := s) (fun k => ?_) ht k
          have hk := i.stored k
          by_cases hj : k = j
          · subst hj
            simp only [s, hp, Stored]
          · cases hc : s₁.child k <;> rw [hc] at hk
            case callback => simpa [s, hc, Stored, Function.update_of_ne hj] using hk
            case finish   => simpa [s, hc, Stored, Function.update_of_ne hj] using hk
            all_goals simp [Stored]

theorem reachable (h : m.system.Reachable s) : Inv m s :=
  h.invariant .init .step

end Inv

-- The parties that still have to count down, and have been launched.

def StarterPc.pending : StarterPc n κ → Bool
  | .finish .done => false
  | _             => true

def ChildPc.pending : ChildPc ε α κ → Bool
  | .notStarted | .finish .done => false
  | _                           => true

theorem StarterPc.pending_of_ne {pc : StarterPc n κ} (h : pc ≠ .finish .done) : pc.pending := by
  cases pc
  case finish pc => cases pc <;> simp_all [pending]
  all_goals rfl

-- What a step of the starter can do, as far as the children and the awaiting coroutine are concerned.
inductive StarterStep (m : Setup n κ ξ) (s₁ s₂ : Config n ε α κ ξ) : Prop
  | launch (j : Fin n) (pc : ChildPc ε α κ) :
    (s₁.starter = .launch j) → (s₂.starter = .loop (j + 1)) → (s₁.child j = .notStarted) →
    (pc = .queued ∨ pc = .running) → (s₂.child = Function.update s₁.child j pc) →
    (s₂.input = s₁.input) → (s₂.resumed = s₁.resumed) → StarterStep m s₁ s₂
  | resume :
    (s₁.starter = .finish (.resume m.continuation)) → (s₂.starter = .finish .done) →
    (s₁.resumed = []) → (s₂.resumed = [m.continuation]) → (s₂.child = s₁.child) →
    (s₂.input = s₁.input) → StarterStep m s₁ s₂
  | other :
    (∀ j, s₁.starter ≠ .launch j) → (∀ h, s₁.starter ≠ .finish (.resume h)) →
    (s₁.starter ≠ .finish .done) → (s₂.child = s₁.child) → (s₂.resumed = s₁.resumed) →
    (∀ j, s₁.child j ≠ .notStarted → s₂.input j = s₁.input j) → StarterStep m s₁ s₂

-- The same for a child that calls back.
inductive ChildStep (m : Setup n κ ξ) (s₁ s₂ : Config n ε α κ ξ) (j : Fin n) : Prop
  | resume :
    (s₁.child j = .finish (.resume m.continuation)) →
    (s₂.child = Function.update s₁.child j (.finish .done)) →
    (s₁.resumed = []) → (s₂.resumed = [m.continuation]) → ChildStep m s₁ s₂ j
  | other (pc : DownPc κ) :
    (s₁.child j).pending → (s₁.child j ≠ .running) → (∀ h, s₁.child j ≠ .finish (.resume h)) →
    (s₂.child = Function.update s₁.child j (.finish pc)) → (s₂.resumed = s₁.resumed) →
    ChildStep m s₁ s₂ j

namespace Inv

-- A party that is about to resume a coroutine is the only one to do so.
theorem resuming (i : Inv m s) (hp : s.countdown.pc p = .resume h) :
    h = m.continuation ∧ s.resumed = [] := by
  refine ⟨i.countdown.atResume p h hp, ?_⟩
  by_contra hr
  rw [i.countdown.done_of_resumed hr p] at hp
  contradiction

theorem down_resumed {pc pc' : DownPc κ} (h : s₁.down pc = some (s₂, pc')) :
    (∀ h, pc ≠ .resume h) → s₂.resumed = s₁.resumed ∧ pc ≠ .done := by
  intro hp
  simp only [Config.down] at h
  split at h
  case h_1 => contradiction
  case h_2 hs =>
    have hr := DownPc.step_resumed hs hp
    have hd : pc ≠ .done := by
      rintro rfl
      contradiction
    cases pc <;> simp only [Option.some.injEq, Prod.mk.injEq] at h <;> obtain ⟨rfl, _⟩ := h
    case resume => exact absurd rfl (hp _)
    all_goals exact ⟨rfl, hd⟩

theorem stepStarter_cases (i : Inv m s₁) (h : m.stepStarter s₁ = some s₂) : StarterStep m s₁ s₂ := by
  cases hp : s₁.starter <;> simp only [Setup.stepStarter, hp] at h
  case loop j =>
    split at h <;> cases h <;>
      exact .other (by simp [hp]) (by simp [hp]) (by simp [hp]) rfl rfl fun _ _ => rfl
  case bind j =>
    cases h
    refine .other (by simp [hp]) (by simp [hp]) (by simp [hp]) rfl rfl fun k hk => ?_
    have hj := (i.launched j).mpr (by rw [hp]; exact Nat.le_refl _)
    exact Function.update_of_ne (fun hkj : k = j => hk (hkj ▸ hj)) ..
  case launch j =>
    have hj := (i.launched j).mpr (by rw [hp]; exact Nat.le_refl _)
    split at h <;> cases h
    case isTrue  => exact .launch j .queued hp rfl hj (.inl rfl) rfl rfl rfl
    case isFalse => exact .launch j .running hp rfl hj (.inr rfl) rfl rfl rfl
  case setAwaitingCoroutine =>
    cases h
    exact .other (by simp [hp]) (by simp [hp]) (by simp [hp]) rfl rfl fun _ _ => rfl
  case finish pc =>
    obtain ⟨⟨s, pc'⟩, hd, rfl⟩ := Option.map_eq_some_iff.mp h
    have hn : s₁.countdown.pc none = pc := by simp [Config.countdown, hp, StarterPc.down]
    have heq := (i.down hn hd).right
    by_cases hr : ∃ h, pc = .resume h
    case pos =>
      obtain ⟨h, rfl⟩ := hr
      obtain ⟨rfl, hr⟩ := i.resuming hn
      cases hd
      exact .resume hp rfl hr (by simp [Config.goto, hr]) rfl rfl
    case neg =>
      have hr (h : κ) : pc ≠ .resume h := fun he => hr ⟨h, he⟩
      obtain ⟨hres, hdone⟩ := down_resumed hd hr
      rw [heq]
      exact .other (by simp [hp]) (by simp [hp, hr]) (by simp [hp, hdone]) rfl hres fun _ _ => rfl

theorem runTask_eq (h : Setup.runTask s₁ j = some s₂) :
    s₁.child j = .queued ∧ s₂.child = Function.update s₁.child j .running ∧
    s₂.starter = s₁.starter ∧ s₂.input = s₁.input ∧ s₂.resumed = s₁.resumed := by
  simp only [Setup.runTask] at h
  split at h <;> cases h
  case h_1 hp => exact ⟨hp, rfl, rfl, rfl, rfl⟩

theorem complete_eq (h : Setup.complete s₁ j t = some s₂) :
    s₁.child j = .running ∧ s₂.child = Function.update s₁.child j (.callback t) ∧
    s₂.starter = s₁.starter ∧ s₂.input = s₁.input ∧ s₂.resumed = s₁.resumed := by
  simp only [Setup.complete] at h
  split at h
  case h_2 => contradiction
  case h_1 hp =>
    split at h <;> cases h
    exact ⟨hp, rfl, rfl, rfl, rfl⟩

theorem stepChild_cases (i : Inv m s₁) (h : Setup.stepChild s₁ j = some s₂) :
    ChildStep m s₁ s₂ j ∧ s₂.starter = s₁.starter ∧ s₂.input = s₁.input := by
  cases hp : s₁.child j <;> simp only [Setup.stepChild, hp] at h
  case callback t =>
    cases h
    exact ⟨.other .down (by rw [hp]; rfl) (by simp [hp]) (by simp [hp]) rfl rfl, rfl, rfl⟩
  case finish pc =>
    obtain ⟨⟨s, pc'⟩, hd, rfl⟩ := Option.map_eq_some_iff.mp h
    have hn : s₁.countdown.pc (some j) = pc := by simp [Config.countdown, hp, ChildPc.down]
    have heq := (i.down hn hd).right
    by_cases hr : ∃ h, pc = .resume h
    case pos =>
      obtain ⟨h, rfl⟩ := hr
      obtain ⟨rfl, hr⟩ := i.resuming hn
      cases hd
      exact ⟨.resume hp rfl hr (by simp [Config.setChild, hr]), rfl, rfl⟩
    case neg =>
      have hr (h : κ) : pc ≠ .resume h := fun he => hr ⟨h, he⟩
      obtain ⟨hres, hdone⟩ := down_resumed hd hr
      rw [heq]
      have hpend : (s₁.child j).pending := by
        rw [hp]
        cases pc <;> first | rfl | exact absurd rfl hdone
      exact ⟨.other pc' hpend (by simp [hp]) (by simp [hp, hr]) rfl hres, rfl, rfl⟩
  all_goals contradiction

-- The function that starts a child is only given to an executor by `CollectAllPara`.
theorem queued_eq (hs : s₁.starter = .launch j) (h : m.stepStarter s₁ = some s₂) (hj : s₂.child j = .queued) :
    m.para ∧ m.executor.isSome := by
  simp only [Setup.stepStarter, hs] at h
  split at h
  case isTrue hp =>
    simp only [Bool.and_eq_true] at hp
    exact ⟨hp.left.left, hp.right⟩
  case isFalse =>
    cases h
    simp [Config.goto, Config.setChild] at hj

-- As long as the coroutine has not been resumed, some party is left, which the starter is, or which it
-- has launched.
theorem pending (i : Inv m s) (hr : s.resumed = []) : s.starter.pending ∨ ∃ j, (s.child j).pending := by
  by_contra hn
  push Not at hn
  obtain ⟨hs, hc⟩ := hn
  have hs : s.starter = .finish .done := by
    by_contra h
    exact hs (StarterPc.pending_of_ne h)
  have hd (p : Option (Fin n)) : s.countdown.pc p = .done := by
    cases p
    case none => simp [Config.countdown, hs, StarterPc.down]
    case some j =>
      have hl := i.launched j
      have hc := hc j
      cases hp : s.child j <;> rw [hp] at hc
      case notStarted =>
        have := hl.mp hp
        simp only [hs, StarterPc.next] at this
        omega
      case finish pc  => cases pc <;> simp_all [ChildPc.pending, Config.countdown, ChildPc.down]
      all_goals exact absurd rfl hc
  have := i.countdown.resumed_of_done hd
  simp [show s.countdown.resumed = [] from hr] at this

end Inv

-- A child is launched with the executor that it is bound to, or else that of the coroutine.

def Setup.bound (m : Setup n κ ξ) (j : Fin n) : Option ξ :=
  (m.input j).or m.executor

structure Bound (m : Setup n κ ξ) (s : Config n ε α κ ξ) : Prop where
  input  : ∀ j, s.input j = m.input j ∨ s.input j = m.bound j
  launch : ∀ j, s.starter = .launch j → s.input j = m.bound j
  child  : ∀ j, s.child j ≠ .notStarted → s.input j = m.bound j

namespace Bound

theorem init : Bound m (m.init : Config n ε α κ ξ) where
  input _  := .inl rfl
  launch _ := nofun
  child _  := absurd rfl

-- Only the binding of a child, right before its launch, changes the executors.
theorem mono (b : Bound m s₁) (hi : s₂.input = s₁.input)
    (hs : ∀ j, s₂.starter = .launch j → s₁.starter = .launch j)
    (hc : ∀ j, s₂.child j ≠ .notStarted → s₁.child j ≠ .notStarted ∨ s₁.starter = .launch j) : Bound m s₂ where
  input j    := hi ▸ b.input j
  launch j h := hi ▸ b.launch j (hs j h)
  child j h  := hi ▸ (hc j h).elim (b.child j) (b.launch j)

theorem down_eq {pc pc' : DownPc κ} (h : s₁.down pc = some (s₂, pc')) :
    s₂.input = s₁.input ∧ s₂.child = s₁.child ∧ s₂.starter = s₁.starter := by
  simp only [Config.down] at h
  split at h
  case h_1 => contradiction
  case h_2 => split at h <;> cases h <;> exact ⟨rfl, rfl, rfl⟩

theorem stepStarter (b : Bound m s₁) (h : m.stepStarter s₁ = some s₂) : Bound m s₂ := by
  cases hp : s₁.starter <;> simp only [Setup.stepStarter, hp] at h
  case loop j =>
    split at h <;> cases h <;> exact b.mono rfl nofun fun _ => .inl
  case bind j =>
    cases h
    suffices hb : ∀ exec, exec = m.bound j →
        Bound m ({ s₁.touch with input := Function.update s₁.input j exec }.goto (.launch j)) by
      refine hb _ ?_
      obtain hj | hj := b.input j <;> rw [hj] <;> simp only [Setup.bound]
      · cases m.input j <;> rfl
      · cases m.input j
        case none => simp only [Option.none_or]; cases m.executor <;> rfl
        case some => rfl
    rintro _ rfl
    have hu (k : Fin n) (hk : s₁.input k = m.input k ∨ s₁.input k = m.bound k) :
        Function.update s₁.input j (m.bound j) k = m.input k ∨ Function.update s₁.input j (m.bound j) k = m.bound k := by
      by_cases hkj : k = j
      · exact .inr (by rw [hkj, Function.update_self])
      · rwa [Function.update_of_ne hkj]
    refine ⟨fun k => hu k (b.input k), fun k hk => ?_, fun k hk => ?_⟩
    · cases hk
      exact Function.update_self ..
    · by_cases hkj : k = j
      · exact hkj ▸ Function.update_self ..
      · exact (Function.update_of_ne hkj ..).trans (b.child k hk)
  case launch j =>
    have hc (pc : ChildPc ε α κ) (k : Fin n) (_ : Function.update s₁.child j pc k ≠ .notStarted) :
        s₁.child k ≠ .notStarted ∨ s₁.starter = .launch k := by
      by_cases hkj : k = j
      · exact .inr (hkj ▸ hp)
      · exact .inl (by rwa [Function.update_of_ne hkj] at *)
    split at h <;> cases h <;> exact b.mono rfl nofun (hc _)
  case setAwaitingCoroutine =>
    cases h
    exact b.mono rfl nofun fun _ => .inl
  case finish pc =>
    obtain ⟨⟨s, pc'⟩, hd, rfl⟩ := Option.map_eq_some_iff.mp h
    obtain ⟨hi, hc, _⟩ := down_eq hd
    exact b.mono hi nofun fun j hj => .inl (hc ▸ hj)

theorem stepChild (b : Bound m s₁) (h : Setup.stepChild s₁ j = some s₂) : Bound m s₂ := by
  have hc (pc : ChildPc ε α κ) (hj : s₁.child j ≠ .notStarted) (k : Fin n)
      (hk : Function.update s₁.child j pc k ≠ .notStarted) : s₁.child k ≠ .notStarted := by
    by_cases hkj : k = j
    · exact hkj ▸ hj
    · rwa [Function.update_of_ne hkj] at hk
  cases hp : s₁.child j <;> simp only [Setup.stepChild, hp] at h
  case callback =>
    cases h
    exact b.mono rfl (fun _ => id) fun k hk => .inl (hc _ (by simp [hp]) k hk)
  case finish pc =>
    obtain ⟨⟨s, pc'⟩, hd, rfl⟩ := Option.map_eq_some_iff.mp h
    obtain ⟨hi, hcd, hs⟩ := down_eq hd
    exact b.mono hi (fun _ h => hs ▸ h) fun k hk => .inl (hc _ (by simp [hp]) k (by rw [← hcd]; exact hk))
  all_goals contradiction

theorem step (b : Bound m s₁) (h : m.system.step s₁ a = some s₂) : Bound m s₂ := by
  have hc (j : Fin n) (pc : ChildPc ε α κ) (hj : s₁.child j ≠ .notStarted) (k : Fin n)
      (hk : Function.update s₁.child j pc k ≠ .notStarted) : s₁.child k ≠ .notStarted := by
    by_cases hkj : k = j
    · exact hkj ▸ hj
    · rwa [Function.update_of_ne hkj] at hk
  cases a
  case starter => exact b.stepStarter h
  case child   => exact b.stepChild h
  case runTask j =>
    obtain ⟨hp, hu, hs, hi, _⟩ := Inv.runTask_eq h
    exact b.mono hi (fun _ h => hs ▸ h) fun k hk => .inl (hc j _ (by simp [hp]) k (hu ▸ hk))
  case complete j t =>
    obtain ⟨hp, hu, hs, hi, _⟩ := Inv.complete_eq h
    exact b.mono hi (fun _ h => hs ▸ h) fun k hk => .inl (hc j _ (by simp [hp]) k (hu ▸ hk))

theorem reachable (h : m.system.Reachable s) : Bound m s :=
  h.invariant .init .step

end Bound

-- A bound on the number of steps that are left.

def StarterPc.rank : StarterPc n κ → Nat
  | .loop i               => 3 * (n - i) + 5
  | .bind i               => 3 * (n - i) + 4
  | .launch i             => 3 * (n - i) + 3
  | .setAwaitingCoroutine => 4
  | .finish pc            => pc.rank

def ChildPc.rank : ChildPc ε α κ → Nat
  | .notStarted => 7
  | .queued     => 6
  | .running    => 5
  | .callback _ => 4
  | .finish pc  => pc.rank

def Config.rank (s : Config n ε α κ ξ) : Nat :=
  s.starter.rank + ∑ i, (s.child i).rank

theorem rank_setChild (s : Config n ε α κ ξ) (i : Fin n) (pc : ChildPc ε α κ) :
    (s.setChild i pc).rank + (s.child i).rank = s.rank + pc.rank := by
  have := Count.sum_update ChildPc.rank s.child i pc
  simp only [Config.rank, Config.setChild]
  omega

theorem rank_setChild_lt {pc : ChildPc ε α κ} (h : pc.rank < (s.child i).rank) :
    (s.setChild i pc).rank < s.rank := by
  have := rank_setChild s i pc
  omega

theorem rank_goto (s : Config n ε α κ ξ) (pc : StarterPc n κ) :
    (s.goto pc).rank + s.starter.rank = s.rank + pc.rank := by
  simp only [Config.rank, Config.goto]
  omega

@[simp]
theorem rank_touch (s : Config n ε α κ ξ) : s.touch.rank = s.rank := rfl

theorem rank_down {pc pc' : DownPc κ} (h : s₁.down pc = some (s₂, pc')) :
    pc'.rank < pc.rank ∧ s₂.starter = s₁.starter ∧ s₂.child = s₁.child := by
  simp only [Config.down] at h
  split at h
  case h_1 => contradiction
  case h_2 hs =>
    have hr := DownPc.rank_step hs
    split at h <;> cases h <;> exact ⟨hr, rfl, rfl⟩

theorem rank_starter (i : Inv m s₁) (h : m.stepStarter s₁ = some s₂) : s₂.rank < s₁.rank := by
  cases hp : s₁.starter <;> simp only [Setup.stepStarter, hp] at h
  case loop j =>
    split at h <;> cases h <;>
      simp only [Config.rank, Config.goto, Config.touch, hp, StarterPc.rank] <;> omega
  case bind j =>
    cases h
    simp only [Config.rank, Config.goto, Config.touch, hp, StarterPc.rank]
    omega
  case launch j =>
    have hj := (i.launched j).mpr (by rw [hp]; exact Nat.le_refl _)
    have hlt (pc : ChildPc ε α κ) (hr : pc.rank < 7) :
        ((s₁.touch.setChild j pc).goto (.loop (j + 1))).rank < s₁.rank := by
      have h₁ := rank_setChild s₁.touch j pc
      have h₂ := rank_goto (s₁.touch.setChild j pc) (.loop (j + 1))
      have h₃ : (s₁.touch.setChild j pc).starter.rank = 3 * (n - j) + 3 := congrArg StarterPc.rank hp
      have h₄ : (s₁.touch.child j).rank = 7 := congrArg ChildPc.rank hj
      have h₅ : (StarterPc.loop (j + 1) : StarterPc n κ).rank = 3 * (n - (j + 1)) + 5 := rfl
      rw [rank_touch] at h₁
      omega
    split at h <;> cases h <;> exact hlt _ (by simp [ChildPc.rank])
  case setAwaitingCoroutine =>
    cases h
    simp [Config.rank, Config.goto, Config.touch, hp, StarterPc.rank, DownPc.rank]
  case finish pc =>
    obtain ⟨⟨s, pc'⟩, hd, rfl⟩ := Option.map_eq_some_iff.mp h
    obtain ⟨hr, hs, hc⟩ := rank_down hd
    simp only [Config.rank, Config.goto, hc, hp, StarterPc.rank]
    omega

theorem rank_child (h : Setup.stepChild s₁ j = some s₂) : s₂.rank < s₁.rank := by
  cases hp : s₁.child j <;> simp only [Setup.stepChild, hp] at h
  case callback t =>
    cases h
    exact rank_setChild_lt (s := { s₁.touch with output := s₁.output.set j t })
      (by simp [Config.touch, hp, ChildPc.rank, DownPc.rank])
  case finish pc =>
    obtain ⟨⟨s, pc'⟩, hd, rfl⟩ := Option.map_eq_some_iff.mp h
    obtain ⟨hr, hs, hc⟩ := rank_down hd
    have := rank_setChild s j (.finish pc')
    simp only [Config.rank, hc, hs, hp, ChildPc.rank] at *
    omega
  all_goals contradiction

theorem rank_step (i : Inv m s₁) (h : m.system.step s₁ a = some s₂) : s₂.rank < s₁.rank := by
  cases a
  case starter => exact rank_starter i h
  case child   => exact rank_child h
  case runTask j =>
    simp only [Setup.system, Setup.runTask] at h
    split at h <;> cases h
    case h_1 hp => exact rank_setChild_lt (s := s₁.touch) (by simp [Config.touch, hp, ChildPc.rank])
  case complete j t =>
    simp only [Setup.system, Setup.complete] at h
    split at h
    case h_2 => contradiction
    case h_1 hp =>
      split at h <;> cases h
      case isTrue =>
        exact rank_setChild_lt (s := { s₁ with produced := Function.update s₁.produced j (some t) })
          (by simp [hp, ChildPc.rank])

-- A party that is not done can take its next step.

theorem down_isSome {pc : DownPc κ} (h : pc ≠ .done) : (s.down pc).isSome := by
  simp only [Config.down]
  split
  case h_1 hs => exact absurd (DownPc.step_none hs) h
  case h_2    => split <;> rfl

theorem stepStarter_isSome (h : s.starter ≠ .finish .done) : (m.stepStarter s).isSome := by
  cases hp : s.starter <;> simp only [Setup.stepStarter, hp]
  case loop      => split <;> rfl
  case launch    => split <;> rfl
  case finish pc => simpa using down_isSome fun hd => h (by rw [hp, hd])
  all_goals rfl

theorem stepChild_isSome (h : (s.child j).pending) (hq : s.child j ≠ .queued) (hr : s.child j ≠ .running) :
    (Setup.stepChild s j).isSome := by
  cases hp : s.child j <;> simp only [Setup.stepChild, hp]
  case notStarted => simp [hp, ChildPc.pending] at h
  case queued     => contradiction
  case running    => contradiction
  case callback   => rfl
  case finish pc  =>
    simp only [Option.isSome_map]
    refine down_isSome ?_
    rintro rfl
    simp [hp, ChildPc.pending] at h

theorem runTask_isSome (h : s.child j = .queued) : (Setup.runTask s j).isSome := by
  simp [Setup.runTask, h]

theorem complete_isSome (h : s.child j = .running) (ht : t.available) : (Setup.complete s j t).isSome := by
  simp [Setup.complete, h, ht]

-- When no step is left, all parties are done.
theorem done_of_quiescent (i : Inv m s) (hq : m.system.Quiescent s) (p : Option (Fin n)) :
    s.countdown.pc p = .done := by
  have hst : s.starter = .finish .done := by
    by_contra h
    have := stepStarter_isSome (m := m) h
    simp [show m.stepStarter s = none from hq .starter] at this
  cases p
  case none => simp [Config.countdown, hst, StarterPc.down]
  case some j =>
    have hq₁ : s.child j ≠ .queued := fun h => by
      have := runTask_isSome h
      simp [show Setup.runTask s j = none from hq (.runTask j)] at this
    have hr : s.child j ≠ .running := fun h => by
      have := complete_isSome (t := .exception (.logicError "")) h rfl
      simp [show Setup.complete s j _ = none from hq (.complete j _)] at this
    have hp : (s.child j).pending = false := by
      by_contra h
      have := stepChild_isSome (by simpa using h) hq₁ hr
      simp [show Setup.stepChild s j = none from hq (.child j)] at this
    cases hc : s.child j <;> simp [hc, ChildPc.pending] at hp
    case notStarted =>
      have := (i.launched j).mp hc
      simp only [hst, StarterPc.next] at this
      omega
    case finish pc => cases pc <;> simp_all [Config.countdown, ChildPc.down]

theorem rank_init : (m.init : Config n ε α κ ξ).rank = 10 * n + 5 := by
  simp only [Config.rank, Setup.init, StarterPc.rank, ChildPc.rank, Finset.sum_const, Finset.card_univ,
    Fintype.card_fin, smul_eq_mul]
  omega

-- The awaiting coroutine is resumed once, with the results of all children, and the awaiter is not
-- used any more after that.
theorem collectAll (h : m.system.Reachable s) :
    (s.resumed = [] ∨ s.resumed = [m.continuation]) ∧
    (s.resumed ≠ [] → s.output.length = n ∧
      ∀ i : Fin n, ∃ t, s.produced i = some t ∧ t.available ∧ s.output[i.val]? = some t) ∧
    (s.late = false) ∧
    (m.system.Quiescent s → s.resumed = [m.continuation]) ∧
    (∀ k, m.system.Steps k s → k ≤ 10 * n + 5) := by
  have i := Inv.reachable h
  refine ⟨?once, fun hr => ⟨i.length, fun j => ?output⟩, i.late, fun hq => ?resumed, fun k hk => ?bound⟩
  case once =>
    have hl : s.resumed.length ≤ 1 := i.countdown.resumed_le
    have hm : ∀ h ∈ s.resumed, h = m.continuation := i.countdown.resumed
    match hr : s.resumed with
    | []          => exact .inl rfl
    | [h]         => exact .inr (by rw [hm h (by simp [hr])])
    | _ :: _ :: _ => simp [hr] at hl
  case output =>
    have hd : (s.child j).down = .done := i.countdown.done_of_resumed hr (some j)
    have hj := i.stored j
    cases hp : s.child j <;> rw [hp] at hd hj
    case finish => exact hj
    all_goals contradiction
  case resumed => exact i.countdown.resumed_of_done (done_of_quiescent i hq)
  case bound =>
    have := hk.length_le (μ := Config.rank) fun hr hs => rank_step (.reachable hr) hs
    have := rank_init (m := m) (ε := ε) (α := α)
    simp only [Setup.system] at *
    omega

def parallelSetup : Setup 2 String Unit where
  para         := true
  executor     := some ()
  input _      := none
  continuation := "parent"

-- Child 0 finishes while the starter is still in its loop, and child 1 is the last to count down.
def parallelRun (zero one : Fin 2) : List (Action 2 Unit Nat) :=
  [.starter, .starter, .starter, .runTask zero, .complete zero (.value 7), .child zero, .child zero,
    .starter, .starter, .starter, .runTask one, .complete one (.exception (.thrown ())), .child one,
    .starter, .starter, .starter, .child one, .child one, .child one]

theorem collectAll_parallel :
    ∃ s : Config 2 Unit Nat String Unit, s.resumed = ["parent"] ∧
      s.output = [.value 7, .exception (.thrown ())] ∧ s.late = false := by
  obtain ⟨s, hr, hs⟩ := parallelSetup.system.exists_reachable (parallelRun 0 1)
    (p := fun s => s.resumed = ["parent"] ∧ s.output = [.value 7, .exception (.thrown ())]) (by decide)
  simp only [Bool.decide_and, Bool.and_eq_true, decide_eq_true_eq] at hs
  exact ⟨s, hs.left, hs.right, (collectAll hr).2.2.1⟩

end CollectAllAwaiter
end AsyncSimple
