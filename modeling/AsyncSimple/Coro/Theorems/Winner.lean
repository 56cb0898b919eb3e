import AsyncSimple.Coro.Theorems.CollectAny

open Transition

namespace AsyncSimple
namespace CollectAnyAwaiter

variable {n : Nat} {ε α κ ξ : Type} {m : Setup n κ ξ} {s s₁ s₂ s₃ : Config n ε α κ ξ}

-- The result is the one that `await_resume` has left behind.
def Taken (m : Setup n κ ξ) (s : Config n ε α κ ξ) : Prop :=
  ∀ r, s.received = some r → s.res = some (r.moved m.isVoid)

namespace Taken

theorem init : Taken m (m.init : Config n ε α κ ξ) :=
  nofun

theorem congr (t : Taken m s₁) (hr : s₂.received = s₁.received) (hs : s₂.res = s₁.res) : Taken m s₂ := by
  intro r h
  rw [hs]
  exact t r (hr ▸ h)

theorem of_none (h : s.received = none) : Taken m s := by
  intro r hr
  rw [h] at hr
  contradiction

theorem stepStarter (i : Inv m s₁) (t : Taken m s₁) (h : m.stepStarter s₁ = some s₂) : Taken m s₂ := by
  cases hp : s₁.starter <;> simp only [Setup.stepStarter, hp] at h
  case awaitReady => split at h <;> cases h <;> exact t.congr rfl rfl
  case moveInput  =>
    cases h
    -- No child has been started, so that there is no winner yet.
    apply of_none
    have hd : s₁.downed = [] := by
      apply List.eq_nil_iff_forall_not_mem.mpr
      intro j hj
      have hj := (i.down j).mp hj
      rwa [i.next j (by simp [hp, StarterPc.next])] at hj
    have ho := i.outcome
    rw [hd] at ho
    exact ho.2.2.2
  case setResult  => cases h; exact t.congr rfl rfl
  case loop       =>
    split at h
    case h_1 => contradiction
    case h_2 =>
      split at h
      case isTrue  => split at h <;> cases h <;> exact t.congr rfl rfl
      case isFalse => cases h; exact t.congr rfl rfl
  case bind       =>
    split at h <;> cases h
    exact t.congr rfl rfl
  case start      => cases h; exact t.congr rfl rfl
  all_goals contradiction

-- As long as the winner writes the result, the coroutine has not been resumed.
theorem stepChild (i : Inv m s₁) (t : Taken m s₁) (h : m.stepChild s₁ j = some s₂) : Taken m s₂ := by
  have winner (hj : (s₁.child j).Down) (hf : s₁.child j ≠ .finished) : s₁.Winner m j := by
    obtain ⟨_, _, hw, _⟩ := i.outcome.winner ((i.down j).mpr hj) hf
    exact hw
  cases hp : s₁.child j <;> simp only [Setup.stepChild, hp] at h
  case downCount => split at h <;> cases h; exact t.congr rfl rfl
  case setIndex  =>
    obtain ⟨_, _, _, _, hw⟩ := winner (by simp [hp, ChildPc.Down]) (by simp [hp])
    simp only [hp] at hw
    split at h <;> cases h
    exact of_none hw.2.2.2
  case setValue  =>
    obtain ⟨_, _, _, _, hw⟩ := winner (by simp [hp, ChildPc.Down]) (by simp [hp])
    simp only [hp] at hw
    split at h <;> cases h
    exact of_none hw.2.2.2.2
  case resume    => cases h; exact t.congr rfl rfl
  all_goals contradiction

theorem step (i : Inv m s₁) (t : Taken m s₁) (h : m.system.step s₁ a = some s₂) : Taken m s₂ := by
  cases a
  case starter  => exact t.stepStarter i h
  case child    => exact t.stepChild i h
  case complete =>
    simp only [Setup.system, Setup.complete] at h
    split at h
    case h_2 => contradiction
    case h_1 => split at h <;> cases h; exact t.congr rfl rfl
  case awaitResume =>
    simp only [Setup.system, Setup.awaitResume] at h
    split at h
    case isFalse => contradiction
    case isTrue  =>
      split at h <;> cases h
      intro r hr
      cases hr
      rfl

theorem reachable (hn : 0 < n) (h : m.system.Reachable s) : Taken m s := by
  induction h
  case init      => exact .init
  case step h e ih => exact ih.step (.reachable hn h) e

end Taken

-- When the coroutine has been resumed, then the index of the result is reset only by a move out of it.
theorem index_eq_none_iff (hn : 0 < n) (h : m.system.Reachable s) (hr : s.resumed ≠ []) :
    ∃ r, s.res = some r ∧ (r.index = none ↔ ¬(m.isVoid ∨ s.received = none)) := by
  obtain ⟨w, _, t, _, _, _, _, _, ⟨hc, hs⟩ | hc⟩ := (Inv.reachable hn h).resumed hr
  · exact ⟨_, hs, by simp [hc]⟩
  · refine ⟨_, Taken.reachable hn h _ hc, ?_⟩
    cases hv : m.isVoid <;> simp [CollectAnyResult.moved, hc]

-- After its loop, the starter starts no children.
theorem notStarted_of_returned (hs : s₁.starter = .returned) (h : (m.system.startingAt s₁).Reachable s₂)
    {j : Fin n} (hj : s₁.child j = .notStarted) : s₂.starter = .returned ∧ s₂.child j = .notStarted := by
  induction h
  case init => exact ⟨hs, hj⟩
  case step s a s' _ e ih =>
    obtain ⟨hp, hc⟩ := ih
    have hu {k : Fin n} {pc : ChildPc ε α} (hk : s.child k ≠ .notStarted) :
        Function.update s.child k pc j = .notStarted := by
      rw [Function.update_of_ne (by rintro rfl; exact hk hc), hc]
    cases a
    case starter     => simp [System.startingAt, Setup.system, Setup.stepStarter, hp] at e
    case complete    =>
      obtain ⟨h₁, h₂, h₃, _⟩ := Inv.complete_eq e
      exact ⟨h₃.trans hp, by rw [h₂]; exact hu (by simp [h₁])⟩
    case awaitResume =>
      obtain ⟨h₁, h₂, _⟩ := Inv.awaitResume_eq e
      exact ⟨h₁.trans hp, by rw [h₂, hc]⟩
    case child k =>
      change m.stepChild s k = some s' at e
      cases hk : s.child k <;> simp only [Setup.stepChild, hk] at e
      case downCount => split at e <;> cases e; exact ⟨hp, hu (by simp [hk])⟩
      case setIndex  => split at e <;> cases e; exact ⟨hp, hu (by simp [hk])⟩
      case setValue  => split at e <;> cases e; exact ⟨hp, hu (by simp [hk])⟩
      case resume    => cases e; exact ⟨hp, hu (by simp [hk])⟩
      all_goals contradiction

-- When the coroutine has been resumed before the loop makes its next check, then no further child is
-- started, unless the result is not void, and the coroutine has already moved it out.
theorem stops_iff (hn : 0 < n) (h : m.system.Reachable s₁) (hr : s₁.resumed ≠ [])
    (hl : s₁.starter = .loop i) (hs : m.stepStarter s₁ = some s₂) :
    (∀ s₃, (m.system.startingAt s₂).Reachable s₃ → ∀ j : Fin n, i ≤ j → s₃.child j = .notStarted) ↔
      m.isVoid ∨ s₁.received = none ∨ n ≤ i := by
  have inv := Inv.reachable hn h
  obtain ⟨r, hres, hidx⟩ := index_eq_none_iff hn h hr
  simp only [Setup.stepStarter, hl, hres] at hs
  constructor
  case mpr =>
    intro hc s₃ h₃ j hj
    have hret : s₂.starter = .returned ∧ s₂.child = s₁.child := by
      split at hs
      case isFalse => cases hs; exact ⟨rfl, rfl⟩
      case isTrue hi =>
        have hc : r.index ≠ none := fun he => hidx.mp he (hc.imp_right fun h => h.resolve_right (by omega))
        rw [if_neg hc] at hs
        cases hs
        exact ⟨rfl, rfl⟩
    have hnot : s₁.child j = .notStarted := inv.next j (by rw [hl]; exact hj)
    exact (notStarted_of_returned hret.left h₃ (hret.right ▸ hnot)).right
  case mp =>
    intro hnever
    by_contra hc
    push Not at hc
    obtain ⟨hv, hrec, hi⟩ := hc
    have he : r.index = none := hidx.mpr (by simp [hv, hrec])
    rw [dif_pos hi, if_pos he] at hs
    cases hs
    -- The loop goes on to start child `i`.
    obtain ⟨in_, hin⟩ := Option.isSome_iff_exists.mp (inv.made (by simp [hl, StarterPc.Made])).left
    have hbind : ∃ s₃, m.stepStarter (s₁.goto (.bind ⟨i, hi⟩)) = some s₃ ∧ s₃.starter = .start ⟨i, hi⟩ := by
      simp only [Setup.stepStarter, Config.goto, hin]
      exact ⟨_, rfl, rfl⟩
    obtain ⟨s₃, hbind, hp⟩ := hbind
    have hstart : m.stepStarter s₃ = some ((s₃.setChild ⟨i, hi⟩ .running).goto (.loop (i + 1))) := by
      simp only [Setup.stepStarter, hp]
    have hrun : (m.system.startingAt (s₁.goto (.bind ⟨i, hi⟩))).run (s₁.goto (.bind ⟨i, hi⟩)) [.starter, .starter] =
        some ((s₃.setChild ⟨i, hi⟩ .running).goto (.loop (i + 1))) := by
      simp [System.run, System.startingAt, Setup.system, hbind, hstart]
    have hj := hnever _ (.run .init hrun) ⟨i, hi⟩ (Nat.le_refl _)
    simp [Config.goto, Config.setChild] at hj

def voidSetup : Setup 2 String Unit where
  isVoid       := true
  executor     := some ()
  input _      := none
  continuation := "parent"

-- Child 0 finishes within its `Start`, and the parent has already moved the result out.
def winnerRun (zero : Fin 2) : List (Action 2 Unit Nat) :=
  [.starter, .starter, .starter, .starter, .starter, .starter, .complete zero (.value 7), .child zero, .child zero,
    .child zero, .child zero, .awaitResume]

theorem stops_void :
    ∃ s₁ s₂ : Config 2 Unit Nat String Unit, s₁.received.isSome ∧ voidSetup.stepStarter s₁ = some s₂ ∧
      ∀ s₃, (voidSetup.system.startingAt s₂).Reachable s₃ → s₃.child 1 = .notStarted := by
  obtain ⟨s₁, h, hp⟩ := voidSetup.system.exists_reachable (winnerRun 0)
    (p := fun s => s.received.isSome ∧ s.resumed ≠ [] ∧ s.starter = .loop 1 ∧ (voidSetup.stepStarter s).isSome)
    (by decide)
  obtain ⟨hc, hr, hl, hs⟩ := of_decide_eq_true hp
  obtain ⟨s₂, hs⟩ := Option.isSome_iff_exists.mp hs
  exact ⟨s₁, s₂, hc, hs, fun s₃ h₃ => (stops_iff (by decide) h hr hl hs).mpr (.inl rfl) s₃ h₃ 1 (Nat.le_refl _)⟩

-- If the result is not void, then child 1 is started all the same.
theorem starts_after_winner :
    ∃ s₁ s₃ : Config 2 Unit Nat String Unit, twoSetup.system.Reachable s₁ ∧ s₁.resumed ≠ [] ∧
      s₁.starter = .loop 1 ∧ (twoSetup.system.startingAt s₁).Reachable s₃ ∧ s₃.child 1 = .running := by
  obtain ⟨s₁, h, hp⟩ := twoSetup.system.exists_reachable (winnerRun 0)
    (p := fun s => s.resumed ≠ [] ∧ s.starter = .loop 1 ∧
      ((twoSetup.system.startingAt s).run s [.starter, .starter, .starter]).any fun s => s.child 1 = .running)
    (by decide)
  obtain ⟨hr, hl, hs⟩ := of_decide_eq_true hp
  obtain ⟨s₃, h₃, hc⟩ := Option.any_eq_true _ _ |>.mp hs
  exact ⟨s₁, s₃, h, hr, hl, .run .init h₃, of_decide_eq_true hc⟩

end CollectAnyAwaiter
end AsyncSimple
