import AsyncSimple.Coro.Theorems.Lazy

open Transition

namespace AsyncSimple
namespace Lazy

variable {ε α ξ θ χ : Type}

namespace Config

-- Code that is still going to be run: it is in a token, which is running, or is held by an executor
-- or by an external awaiter; or it comes next after a cell, all of whose code is still going to be run.
inductive Live (s : Config ε α ξ θ χ) : Node → Prop
  | token : (tok ∈ s.tokens) → Live s tok.node
  | next {x : Cell ε α ξ θ χ} :
    (s.cells[c]? = some x) → (x.next = some n) → (0 < x.needs c p) →
    (∀ p, 0 < x.needs c p → Live s p) → Live s n

end Config

-- A coroutine waits, for an executor, another coroutine, an external awaiter, or a vector of children.
-- The one that `Start` has launched waits for its child.
def Stage.isSuspended : Stage ε α ξ k → Bool
  | initial _ | running _ | final => false
  | _                             => true

def Cell.isSuspended : Cell ε α ξ θ χ → Bool
  | lazy f                => f.stage.isSuspended
  | launch _ _ _ awaiting => awaiting
  | _                     => false

def Config.NoneStranded (s : Config ε α ξ θ χ) : Prop :=
  ∀ (c : Nat) x, s.cells[c]? = some x → x.isSuspended → s.Live (.coro c)

-- The executors accept each function that they are given.
def Accepted (_ : Config ε α ξ θ χ) : Action ε α θ → Prop
  | .run _ _    => True
  | .step _ env => env.accept

instance (s : Config ε α ξ θ χ) (a : Action ε α θ) : Decidable (Accepted s a) := by
  cases a
  case run  => exact .isTrue trivial
  case step => exact inferInstanceAs (Decidable (_ = true))

variable {m : Setup ε α ξ θ χ} {s s₁ s₂ : Config ε α ξ θ χ} {env : Env ε α}

-- Then nothing is refused.

section Refused

theorem refused_schedule (he : env.accept) : (s.schedule executor node env.accept).refused = s.refused := by
  rw [he]
  cases executor <;> rfl

theorem refused_submit (he : env.accept) : (s.submit executor context node env.accept).refused = s.refused := by
  rw [he]
  rfl

theorem refused_wrap {executor_ : Option ξ} {t : θ} {c : Nat} :
    (m.wrap s reschedule executor_ t c).1.refused = s.refused := by
  cases reschedule <;> rfl

theorem refused_finalSuspend {f : Frame ε α ξ θ k} :
    (s.finalSuspend t c f result).refused = s.refused := by
  simp only [Config.finalSuspend]
  split <;> rfl

theorem refused_exec {f : Frame ε α ξ θ k} (he : env.accept) (h : m.exec s₁ t c env f body = some s₂) :
    s₂.refused = s₁.refused := by
  cases body <;> simp only [Setup.exec] at h
  case coReturn        => cases h; exact refused_finalSuspend
  case coReturnVoid    => cases h; exact refused_finalSuspend
  case throw           => cases h; exact refused_finalSuspend
  case currentExecutor => cases h; rfl
  case yield           => cases h; exact refused_schedule he
  case schedule        =>
    split at h <;> cases h
    case isTrue  => rfl
    case isFalse => exact refused_submit he
  case scheduleAfter   => cases h; exact refused_submit he
  case await           => cases h; rfl
  case awaitVia        => cases h; exact refused_schedule he
  case awaitExternal   =>
    split at h
    case h_3 => split at h <;> cases h; rfl
    all_goals
      cases h
      rfl
  case collectAll      =>
    split at h <;> cases h
    case isTrue  => rfl
    case isFalse => exact refused_wrap
  case collectAny      =>
    split at h <;> cases h
    case isTrue  => rfl
    case isFalse => exact refused_wrap

theorem refused_stepLazy {f : Frame ε α ξ θ k} (he : env.accept) (h : m.stepLazy s₁ t c env f = some s₂) :
    s₂.refused = s₁.refused := by
  cases hp : f.stage <;> simp only [Setup.stepLazy, hp] at h
  case running    => exact refused_exec he h
  case awaiting   => split at h <;> cases h <;> rfl
  case collectAll => split at h <;> cases h; rfl
  case collectAny =>
    split at h
    case h_2 => contradiction
    case h_1 =>
      split at h
      case h_1 => cases h; rfl
      case h_2 =>
        obtain ⟨_, _, rfl⟩ := Option.map_eq_some_iff.mp h
        rfl
  case final => contradiction
  all_goals
    cases h
    rfl

theorem refused_callback (h : Setup.callback s₁ t r callback = some s₂) : s₂.refused = s₁.refused := by
  cases callback <;> simp only [Setup.callback] at h
  case caller => cases h; rfl
  case child  =>
    split at h <;> try contradiction
    all_goals
      split at h <;> try contradiction
      obtain ⟨_, _, rfl⟩ := Option.map_eq_some_iff.mp h
      rfl

theorem refused_stepNode (he : env.accept) (h : m.stepNode s₁ t env a = some s₂) :
    s₂.refused = s₁.refused := by
  cases a <;> simp only [Setup.stepNode] at h
  case coro c =>
    simp only [Setup.stepCoro] at h
    split at h <;> try contradiction
    case h_1 => exact refused_stepLazy he h
    case h_2 =>
      split at h <;> cases h
      simp only [Setup.stepVia]
      split
      case h_1 => rfl
      case h_2 =>
        split
        case isTrue  => rfl
        case isFalse => exact refused_submit he
    case h_3 =>
      simp only [Setup.stepLaunch] at h
      split at h
      case isTrue =>
        split at h <;> try contradiction
        case h_1 =>
          obtain ⟨_, hs, rfl⟩ := Option.map_eq_some_iff.mp h
          have := refused_callback hs
          exact this
        case h_2 => cases h; rfl
      case isFalse =>
        split at h <;> try contradiction
        case h_1 =>
          split at h <;> cases h
          case isTrue  => exact refused_schedule he
          case isFalse => rfl
  case starter q =>
    simp only [Setup.stepStarter] at h
    split at h <;> try contradiction
    case h_1 =>
      obtain ⟨_, _, rfl⟩ := Option.map_eq_some_iff.mp h
      split <;> try rfl
      split
      case h_1 => exact refused_schedule he
      case h_2 => rfl
    case h_2 =>
      obtain ⟨_, _, rfl⟩ := Option.map_eq_some_iff.mp h
      split <;> rfl
  case child q j =>
    simp only [Setup.stepChild] at h
    split at h <;> try contradiction
    case h_1 =>
      split at h <;> try contradiction
      split at h
      case h_1 =>
        obtain ⟨_, _, rfl⟩ := Option.map_eq_some_iff.mp h
        rfl
      case h_2 =>
        obtain ⟨_, _, rfl⟩ := Option.map_eq_some_iff.mp h
        split <;> rfl
    case h_2 =>
      split at h <;> try contradiction
      obtain ⟨_, _, rfl⟩ := Option.map_eq_some_iff.mp h
      split <;> rfl

end Refused

theorem refused_reachable (h : (m.system.restrict Accepted).Reachable s) : s.refused = [] := by
  refine h.invariant (I := fun s => s.refused = []) rfl fun {s₁ a s₂} hr hs => ?_
  obtain ⟨he, hs⟩ := System.restrict_step.mp hs
  simp only [Setup.system] at hs
  split at hs <;> try contradiction
  cases a <;> simp only [Setup.step] at hs
  case run =>
    split at hs
    case h_1 => split at hs <;> cases hs; exact hr
    case h_2 => cases hs; exact hr
    case h_3 => contradiction
  case step =>
    split at hs <;> try contradiction
    obtain ⟨_, hn, rfl⟩ := Option.map_eq_some_iff.mp hs
    split
    case h_1 => exact (refused_stepNode he hn).trans hr
    case h_2 => exact hr

-- The code that comes after a cell is that of one which has been created before, and the cell has some
-- code of its own until then.

theorem Config.Linked.next_lt (hl : s.Linked c x) (h : x.next = some n) : n.id < c := by
  cases x <;> simp only [Cell.next, reduceCtorEq] at h
  case lazy f =>
    split at h
    case isFalse => contradiction
    case isTrue  =>
      obtain ⟨p, hp, rfl⟩ := Option.map_eq_some_iff.mp h
      exact hl.2.1 p hp
  case via =>
    split at h <;> cases h
    exact hl
  case launch callback _ =>
    cases callback <;> simp only [reduceCtorEq, Option.some.injEq] at h
    case child q j =>
      subst h
      exact hl.2.2.2 q j rfl
  case collectAll =>
    split at h <;> cases h
    exact hl.1
  case collectAny =>
    split at h <;> cases h
    exact hl.1

theorem Config.Linked.exists_needs (hl : s.Linked c x) (h : x.next = some n) : ∃ p, 0 < x.needs c p := by
  cases x <;> simp only [Cell.next, reduceCtorEq] at h
  case lazy f =>
    split at h
    case isFalse    => contradiction
    case isTrue ha  => exact ⟨.coro c, by simp [needs_alive ha, one_self]⟩
  case via =>
    split at h <;> cases h
    case isFalse hr => exact ⟨.coro c, by simp [Cell.needs, hr, one_self]⟩
  case launch => exact ⟨.coro c, by simp [Cell.needs, one_self]⟩
  case collectAll state =>
    split at h <;> cases h
    case isTrue hr =>
    obtain hp | ⟨j, hp⟩ := (CollectAllAwaiter.Inv.reachable hl.2).pending (List.isEmpty_iff.mp hr)
    · exact ⟨.starter c, by simp only [Cell.needs, hp, if_true, one_self]; omega⟩
    · refine ⟨.child c j, Nat.lt_of_lt_of_le ?_ (Nat.le_add_left ..)⟩
      exact Finset.sum_pos' (fun _ _ => Nat.zero_le _) ⟨j, Finset.mem_univ j, by simp [hp, one_self]⟩
  case collectAny state =>
    split at h <;> cases h
    case isTrue hr =>
    obtain hp | ⟨j, hp⟩ := (CollectAnyAwaiter.Inv.reachable hl.2.1 hl.2.2).pending hl.2.1 (List.isEmpty_iff.mp hr)
    · exact ⟨.starter c, by simp only [Cell.needs, hp, if_true, one_self]; omega⟩
    · refine ⟨.child c j, Nat.lt_of_lt_of_le ?_ (Nat.le_add_left ..)⟩
      exact Finset.sum_pos' (fun _ _ => Nat.zero_le _) ⟨j, Finset.mem_univ j, by simp [hp, one_self]⟩

-- As nothing has been refused, the holder of some code is a token, or a cell that has been created
-- later. Thus, the claim holds by induction on the number of cells after that of the code.
theorem Inv.live (i : Inv s) (hr : s.refused = []) (h : 0 < s.needs n) : s.Live n := by
  have hlt : n.id < s.cells.length := by
    by_contra hge
    simp [Config.needs, List.getElem?_eq_none (Nat.le_of_not_lt hge)] at h
  have hh : 0 < s.tokens.countP (·.node = n) + s.cells.countP (·.next = some n) := by
    have := i.held n
    simp only [Config.holds, hr, List.count_nil] at this
    omega
  obtain ht | hc := Nat.add_pos_iff_pos_or_pos.mp hh
  · obtain ⟨tok, ht, hn⟩ := List.countP_pos_iff.mp ht
    rw [← of_decide_eq_true hn]
    exact .token ht
  · obtain ⟨x, hm, hn⟩ := List.countP_pos_iff.mp hc
    obtain ⟨c, hx⟩ := List.mem_iff_getElem?.mp hm
    have hn  := of_decide_eq_true hn
    have hl  := i.linked c x hx
    have hnc := hl.next_lt hn
    obtain ⟨p, hp⟩ := hl.exists_needs hn
    refine .next hx hn hp fun p hp => ?_
    have hid : p.id = c := by
      by_contra hne
      simp [needs_of_ne hne] at hp
    exact i.live hr (by simpa [Config.needs, hid, hx] using hp)
termination_by s.cells.length - n.id
decreasing_by omega

-- A coroutine that waits is still to be run.
theorem Inv.needs_suspended {c : Nat} (i : Inv s) (hx : s.cells[c]? = some x) (hs : x.isSuspended) :
    0 < s.needs (.coro c) := by
  cases x <;> simp only [Cell.isSuspended, Bool.false_eq_true] at hs
  case launch => simp [Config.needs, Node.id, hx, Cell.needs, one_self]
  case lazy f =>
    have hc : f.continuation_ ≠ none := fun hn => by
      have := (i.linked c _ hx).1 hn
      cases hp : f.stage <;> simp [hp, Stage.isInitial, Stage.isSuspended] at this hs
    have hf : f.stage.isFinal = false := by
      cases hp : f.stage <;> simp [hp, Stage.isFinal, Stage.isSuspended] at hs ⊢
    have ha : f.alive := by simp [Frame.alive, hf, Option.isSome_iff_ne_none.mpr hc]
    simp [Config.needs, Node.id, hx, needs_alive ha, one_self]

theorem none_stranded (h : (m.system.restrict Accepted).Reachable s) : s.NoneStranded := by
  intro c x hx hs
  have i := Inv.reachable h.of_restrict
  exact i.live (refused_reachable h) (i.needs_suspended hx hs)

-- Executors with one thread each. A coroutine is started on the thread of the executor it is bound to.

def worker (e : Nat) : Executor Nat Nat where
  currentThreadInExecutor t := t = e
  checkout t                := t
  prompt t c                := t = c ∧ t = e
  admits c t                := t = c ∧ t = e
  prompt_in _ _ h           := decide_eq_true (of_decide_eq_true h).right
  admits_in _ _ h           := decide_eq_true (of_decide_eq_true h).right

def workers (program : Body Unit Unit Nat .void) : Setup Unit Unit Nat Nat Nat where
  executor   := worker
  kind       := .void
  program    := program
  reschedule := false
  executor_  := some 0
  thread     := 0

def stepFirst (accept : Bool) : Action Unit Unit Nat :=
  .step 0 ⟨accept, .ready, .value none⟩

def awaitReschedule : Body Unit Unit Nat .void :=
  .awaitVia (some 1) (.coReturnVoid : Body Unit Unit Nat .void) fun _ => .coReturnVoid

def awaitPara : Body Unit Unit Nat .void :=
  .collectAll 2 true false (fun _ => none) (fun _ => (.coReturnVoid : Body Unit Unit Nat .void))
    fun _ => .coReturnVoid

-- The child runs on the thread of its executor, and has come to its end.
def rescheduleRun : List (Action Unit Unit Nat) :=
  [stepFirst true, stepFirst true, stepFirst true, .run 0 1, stepFirst true, stepFirst true]

theorem none_stranded_reschedule :
    ∃ s, (workers awaitReschedule).system.Reachable s ∧ s.Live (.coro 1) := by
  obtain ⟨s, hr, hs⟩ := ((workers awaitReschedule).system.restrict Accepted).exists_reachable rescheduleRun
    (p := fun s => s.cells[1]?.any Cell.isSuspended) (by decide)
  obtain ⟨x, hx, hs⟩ := Option.any_eq_true _ _ |>.mp hs
  exact ⟨s, hr.of_restrict, none_stranded hr 1 x hx hs⟩

-- Nothing is left that can run, but the coroutine that has been started still waits.
def Config.stuck (s : Config ε α ξ θ χ) : Bool :=
  s.tokens.isEmpty && s.cells[1]?.any Cell.isSuspended

theorem Config.Live.tokens_ne (h : s.Live n) : s.tokens ≠ [] := by
  induction h
  case token h           => exact List.ne_nil_of_mem h
  case next _ _ hp _ ih  => exact ih _ hp

-- When no code is in a token, and none has been refused, then nothing is left to be run.

theorem Inv.needs_eq_zero (i : Inv s) (hr : s.refused = []) (ht : s.tokens = []) (n : Node) : s.needs n = 0 := by
  by_contra hn
  exact (i.live hr (Nat.pos_of_ne_zero hn)).tokens_ne ht

theorem Inv.not_suspended {c : Nat} (i : Inv s) (hr : s.refused = []) (ht : s.tokens = []) (hx : s.cells[c]? = some x) :
    x.isSuspended = false := by
  by_contra hs
  have := i.needs_suspended hx (by simpa using hs)
  rw [i.needs_eq_zero hr ht] at this
  contradiction

theorem Config.stuck_stranded (h : s.stuck) : ¬s.NoneStranded := by
  intro hn
  simp only [Config.stuck, Bool.and_eq_true, List.isEmpty_iff] at h
  obtain ⟨x, hx, hs⟩ := Option.any_eq_true _ _ |>.mp h.right
  exact (hn 1 x hx hs).tokens_ne h.left

theorem exists_stranded {m : Setup Unit Unit Nat Nat Nat} (refused : List Node) (as : List (Action Unit Unit Nat))
    (h : (m.system.run m.system.init as).any fun s => s.refused = refused && s.stuck) :
    ∃ s, m.system.Reachable s ∧ s.refused = refused ∧ ¬s.NoneStranded := by
  obtain ⟨s, hr, hs⟩ := m.system.exists_reachable as h
  simp only [Bool.and_eq_true, decide_eq_true_eq] at hs
  exact ⟨s, hr, hs.left, s.stuck_stranded hs.right⟩

-- `Yield` is refused, and `Schedule` of a `RescheduleLazy`, and `Checkin` of the `ViaCoroutine` after it,
-- and the functions that start the children of `CollectAllPara`.
theorem refused_stranded :
    (∃ s, (workers (.yield .coReturnVoid)).system.Reachable s ∧ s.refused = [.coro 1] ∧ ¬s.NoneStranded) ∧
    (∃ s, (workers awaitReschedule).system.Reachable s ∧ s.refused = [.coro 3] ∧ ¬s.NoneStranded) ∧
    (∃ s, (workers awaitReschedule).system.Reachable s ∧ s.refused = [.coro 1] ∧ ¬s.NoneStranded) ∧
    (∃ s, (workers awaitPara).system.Reachable s ∧ s.refused = [.child 2 0, .child 2 1] ∧ ¬s.NoneStranded) :=
  ⟨exists_stranded _ [stepFirst true, stepFirst true, stepFirst false] (by decide),
    exists_stranded _ [stepFirst true, stepFirst true, stepFirst false] (by decide),
    exists_stranded _ (rescheduleRun ++ [stepFirst false]) (by decide),
    exists_stranded _ (List.replicate 12 (stepFirst false)) (by decide)⟩

end Lazy
end AsyncSimple
