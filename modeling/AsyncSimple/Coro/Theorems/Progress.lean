import AsyncSimple.Coro.Theorems.Wiring

open Transition

namespace AsyncSimple
namespace Lazy

variable {ε α ξ θ χ : Type} {m : Setup ε α ξ θ χ} {s : Config ε α ξ θ χ} {env : Env ε α}

-- The launched coroutine that calls the callback of the caller.
def Cell.tells : Cell ε α ξ θ χ → Bool
  | launch _ _ .caller _ => true
  | _                    => false

-- There is one such coroutine, or the caller has got one result.
def Config.Once (s : Config ε α ξ θ χ) : Prop :=
  s.delivered.length + s.cells.countP Cell.tells = 1

namespace Config.Once

variable {x y : Cell ε α ξ θ χ}

theorem set (o : s.Once) (hx : s.cells[c]? = some x) (ht : y.tells = x.tells) : (s.set c y).Once := by
  have := Count.countP_set (p := Cell.tells) y hx
  simp only [Config.Once, Config.set] at *
  rw [ht] at this
  omega

theorem add (o : s.Once) (ht : y.tells = false) : (s.add y).Once := by
  simpa [Config.Once, Config.add, List.countP_append, ht] using o

-- The result of the caller comes instead of the launched coroutine that brings it.
theorem deliver (o : s.Once) (hc : s.cells[c]? = some (.launch reschedule child .caller awaiting)) :
    ({ s with delivered := s.delivered ++ [r] }.destroy c).Once := by
  have := Count.countP_set (p := Cell.tells) (.destroyed : Cell ε α ξ θ χ) hc
  simp only [Config.Once, Cell.tells, Config.destroy, Config.set, List.length_append, List.length_singleton] at *
  simp only [if_true, Bool.false_eq_true, if_false] at *
  omega

theorem delivered (o : s.Once) (hn : ∀ n, s.needs n = 0) : ∃ r, s.delivered = [r] := by
  have ht : s.cells.countP Cell.tells = 0 := by
    rw [List.countP_eq_zero]
    intro x hx htell
    obtain ⟨c, hx⟩ := List.mem_iff_getElem?.mp hx
    have := hn (.coro c)
    cases x <;> simp [Cell.tells, Config.needs, Node.id, hx, Cell.needs, one_self] at htell this
  simp only [Config.Once] at o
  exact List.length_eq_one_iff.mp (by omega)

end Config.Once

namespace Wired

-- The coroutine that is running on has been resumed because what it waits for is there: the result of
-- its child, or that of the first child of a vector.

theorem exists_result (w : Wired s) (h : Holding s (.coro c :: l)) (hf : s.fault = none) (ha : s.Awaits c child) :
    ∃ r, s.result child = some (some r) := by
  obtain ⟨p, hp, _⟩ := id ha
  simp only [Config.cont, Option.bind_eq_some_iff] at hp
  obtain ⟨x, hx, hp⟩ := hp
  cases x <;> simp only [Cell.cont, reduceCtorEq] at hp
  case lazy f =>
    obtain ⟨r, hr⟩ := Option.isSome_iff_exists.mp ((w.own child _ hx).left (h.isFinal hf ha hx))
    exact ⟨r, by simp [Config.result, hx, hr]⟩

theorem exists_received {children : Fin n → Body ε α ξ k} {setup : CollectAnyAwaiter.Setup n Nat ξ}
    {state : CollectAnyAwaiter.Config n ε (Option α) Nat ξ} {g : CollectAnyResult ε (Option α) → Body ε α ξ k'}
    (h : Holding s (.coro c :: l)) (hf : s.fault = none)
    (hq : s.cells[q]? = some (.collectAny reschedule children setup state))
    (hv : s.Serves (.collectAny q g : Stage ε α ξ k') q c) : ∃ state', setup.awaitResume state = some state' := by
  obtain ⟨x, p, hx, hr, hw, ht⟩ := hv
  cases hq.symm.trans hx
  cases hw
  have hres : state.resumed ≠ [] := fun hn => h.next_ne_via hf hq ht (by simp [Cell.next, hn])
  exact Option.isSome_iff_exists.mp ((h.invAny hq).awaitResume_isSome hres hr)

-- Each piece of code that a step holds can be run.

theorem available_tryResult {result : Slot ε α k} (h : result.tryResult = some r) : r.available := by
  cases result
  case value x => cases x <;> cases h <;> rfl
  case void x  => cases x <;> cases h <;> rfl

theorem available_result (h : s.result child = some (some r)) : r.available := by
  simp only [Config.result] at h
  split at h
  case h_1 => exact available_tryResult (Option.some.inj h)
  case h_2 => contradiction

theorem exec_isSome {f : Frame ε α ξ θ k} (he : env.outcome = .ready) : (m.exec s t c env f body).isSome := by
  cases body <;> simp only [Setup.exec]
  case schedule      => split <;> rfl
  case awaitExternal => simp [he]
  case collectAll    => split <;> rfl
  case collectAny    => split <;> rfl
  all_goals rfl

theorem stepLazy_isSome {f : Frame ε α ξ θ k} (w : Wired s) (h : Holding s [.coro c]) (hf : s.fault = none)
    (he : env.outcome = .ready) (hc : s.cells[c]? = some (.lazy f)) : (m.stepLazy s t c env f).isSome := by
  have ha := h.alive hf hc
  have hv := (w.own c _ hc).right
  cases hp : f.stage <;> simp only [Setup.stepLazy, hp]
  case running => exact exec_isSome he
  case final   => simp [Frame.alive, hp, Stage.isFinal] at ha
  case awaiting child g =>
    obtain ⟨r, hr⟩ := w.exists_result h hf ((h.linked c _ hc).2.2 child (by rw [hp]; rfl))
    simp [hr]
  case collectAll q g =>
    obtain ⟨x, _, hx, hs, _⟩ := hv q (by rw [hp]; rfl)
    rw [hp] at hs
    cases x <;> simp only [Stage.Serves] at hs
    simp [hx]
  case collectAny q g =>
    have hv := hv q (by rw [hp]; rfl)
    rw [hp] at hv
    obtain ⟨x, _, hx, hs, _⟩ := id hv
    cases x <;> simp only [Stage.Serves] at hs
    case collectAny =>
      obtain ⟨state', hw⟩ := exists_received h hf hx hv
      obtain ⟨r, hr⟩ := CollectAnyAwaiter.Inv.awaitResume_received hw
      simp [hx, hw, hr]
  all_goals rfl

theorem stepLaunch_isSome (w : Wired s) (h : Holding s [.coro c]) (hf : s.fault = none)
    (hc : s.cells[c]? = some (.launch reschedule child callback awaiting)) :
    (Setup.stepLaunch s t c env reschedule child callback awaiting).isSome := by
  cases awaiting <;> simp only [Setup.stepLaunch, Bool.false_eq_true, if_false, if_true]
  case false =>
    obtain ⟨x, hx, hl⟩ := w.own c _ hc
    cases x <;> simp only [Cell.isLazy, Bool.false_eq_true] at hl
    case lazy =>
      simp only [hx]
      split <;> rfl
  case true =>
    obtain ⟨r, hr⟩ := w.exists_result h hf (h.awaits_child hc rfl).left
    simp only [hr, Option.isSome_map]
    cases callback
    case caller    => rfl
    case child q j =>
      obtain ⟨x, hx, hrun⟩ := (w.runs q j).mpr ⟨c, _, hc, rfl⟩
      simp only [Setup.callback, hx]
      cases x <;> simp only [Cell.Runs] at hrun
      case collectAll =>
        obtain ⟨hj, hp⟩ := hrun
        simpa [hj] using CollectAllAwaiter.complete_isSome hp (available_result hr)
      case collectAny =>
        obtain ⟨hj, hp⟩ := hrun
        simpa [hj] using CollectAnyAwaiter.complete_isSome hp (available_result hr)

theorem stepStarter_isSome (h : Holding s [.starter q]) (hf : s.fault = none) :
    (Setup.stepStarter s t q env).isSome := by
  have hn := h.needs_pos hf
  simp only [Config.needs, Node.id] at hn
  simp only [Setup.stepStarter]
  cases hq : s.cells[q]? <;> simp only [hq, Option.elim_none, Option.elim_some] at hn
  case none   => contradiction
  case some x =>
    cases x <;> simp [Cell.needs, Node.one] at hn
    case collectAll =>
      simpa using CollectAllAwaiter.stepStarter_isSome fun hp => by
        simp [hp, CollectAllAwaiter.StarterPc.pending] at hn
    case collectAny =>
      simpa using (h.invAny hq).stepStarter_isSome fun hp => by
        simp [hp, CollectAnyAwaiter.StarterPc.pending] at hn

theorem exists_pending {n : Nat} {p : Fin n → Bool} (h : 0 < ∑ i, if p i then (Node.child q i).one (.child q j) else 0) :
    ∃ h : j < n, p ⟨j, h⟩ := by
  obtain ⟨i, _, hi⟩ := Finset.exists_ne_zero_of_sum_ne_zero h.ne'
  split at hi
  case isFalse   => contradiction
  case isTrue hp =>
    by_cases hij : i.val = j
    · exact ⟨hij ▸ i.isLt, by simpa [← hij] using hp⟩
    · simp [Node.one, hij] at hi

-- The launched coroutine of a child is left, when the callback of this child is run.
theorem not_runs_child (w : Wired s) (h : Holding s [.child q j]) (hf : s.fault = none) : ¬ s.Runs q j := by
  intro hr
  obtain ⟨l, x, hx, hl⟩ := (w.runs q j).mp hr
  cases x <;> simp only [Cell.callback, reduceCtorEq, Option.some.injEq] at hl
  subst hl
  have h₁ := h.owes hf (.child q j)
  have h₂ := needs_child_le s q j
  have h₃ : 0 < s.cells.countP (·.next = some (.child q j)) :=
    List.countP_pos_iff.mpr ⟨_, List.mem_of_getElem? hx, by simp [Cell.next]⟩
  simp only [List.map_cons, List.sum_cons, one_self, Config.holds] at h₁
  omega

theorem stepChild_isSome (w : Wired s) (h : Holding s [.child q j]) (hf : s.fault = none) :
    (Setup.stepChild s t q j).isSome := by
  have hn := h.needs_pos hf
  have hr := w.not_runs_child h hf
  have h₁ : (Node.coro q).one (.child q j) = 0 := rfl
  have h₂ : (Node.starter q).one (.child q j) = 0 := rfl
  simp only [Config.needs, Node.id] at hn
  simp only [Setup.stepChild]
  cases hq : s.cells[q]? <;> simp only [hq, Option.elim_none, Option.elim_some] at hn
  case none   => contradiction
  case some x =>
    cases x <;> simp only [Cell.needs, h₁, h₂, ite_self, Nat.zero_add, Nat.lt_irrefl] at hn
    case collectAll state =>
      obtain ⟨hj, hp⟩ := exists_pending hn
      have hr : state.child ⟨j, hj⟩ ≠ .running := fun hp => hr ⟨_, hq, hj, hp⟩
      simp only [hj, dif_pos]
      split
      case h_1 hp => simpa using CollectAllAwaiter.runTask_isSome hp
      case h_2 hp => simpa using CollectAllAwaiter.stepChild_isSome ‹_› hp hr
    case collectAny state =>
      obtain ⟨hj, hp⟩ := exists_pending hn
      have hr : state.child ⟨j, hj⟩ ≠ .running := fun hp => hr ⟨_, hq, hj, hp⟩
      simpa [hj] using (h.invAny hq).stepChild_isSome hp hr

theorem progress (w : Wired s) (h : Holding s [a]) (hf : s.fault = none) (he : env.outcome = .ready) :
    (m.stepNode s t env a).isSome := by
  cases a <;> simp only [Setup.stepNode]
  case starter => exact stepStarter_isSome h hf
  case child   => exact w.stepChild_isSome h hf
  case coro c  =>
    have hn := h.needs_pos hf
    simp only [Setup.stepCoro]
    split
    case h_1 hc => exact w.stepLazy_isSome h hf he hc
    case h_2 hc =>
      split
      case isTrue hr => simp [Config.needs, Node.id, hc, Cell.needs, hr] at hn
      case isFalse   => rfl
    case h_3 hc => exact w.stepLaunch_isSome h hf hc
    case h_4 h₁ h₂ h₃ =>
      cases hc : s.cells[c]?
      case none   => simp [Config.needs, Node.id, hc] at hn
      case some x =>
        cases x
        case lazy      => exact absurd hc (h₁ _ _)
        case via       => exact absurd hc (h₂ _ _ _)
        case launch    => exact absurd hc (h₃ _ _ _ _)
        case destroyed => simp [Config.needs, Node.id, hc, Cell.needs] at hn
        all_goals simp [Config.needs, Node.id, hc, Cell.needs, Node.one] at hn

-- Code that is on a thread can take a step.
theorem step_isSome (w : Wired s) (i : Inv s) (hf : s.fault = none) (he : env.outcome = .ready)
    (ht : s.tokens[j]? = some ⟨.running t, a⟩) : (m.system.step s (.step j env)).isSome := by
  have wt : Wired (s.take j) := w.congr rfl
  simpa [Setup.system, hf, Setup.step, ht] using wt.progress (m := m) (t := t) (i.holding.take ht) hf he

end Wired
end Lazy
end AsyncSimple
