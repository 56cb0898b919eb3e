import AsyncSimple.Lib.Workload
import AsyncSimple.Coro.Theorems.Lazy

open Transition Workload

namespace AsyncSimple

-- Children whose bodies have not been given to a coroutine yet.

def CollectAllAwaiter.ChildPc.unstarted : ChildPc ε α κ → Bool
  | notStarted | queued => true
  | _                   => false

def CollectAnyAwaiter.ChildPc.unstarted : ChildPc ε α → Bool
  | notStarted => true
  | _          => false

theorem CollectAllAwaiter.ChildPc.unstarted_of_pending {pc : ChildPc ε α κ} (h : pc.pending) (hq : pc ≠ .queued) :
    pc.unstarted = false := by
  cases pc
  case notStarted => contradiction
  case queued     => contradiction
  all_goals rfl

theorem CollectAnyAwaiter.ChildPc.unstarted_of_pending {pc : ChildPc ε α} (h : pc.pending) : pc.unstarted = false := by
  cases pc
  case notStarted => contradiction
  all_goals rfl

theorem CollectAnyAwaiter.ChildPc.unstarted_of_ne {pc : ChildPc ε α} (h : pc ≠ .notStarted) : pc.unstarted = false := by
  cases pc
  case notStarted => contradiction
  all_goals rfl

namespace Lazy

variable {ε α ξ θ χ : Type}

def Body.task : Body ε α ξ k → Task
  | coReturn _ | coReturnVoid | throw _              => .node Empty.elim
  | currentExecutor f                                => .node fun e => (f e).task
  | yield body | schedule _ body | scheduleAfter _ body => .node fun _ : Unit => body.task
  | await child f | awaitVia _ child f               => .node fun
    | some () => child.task
    | none    => .node fun r => (f r).task
  | awaitExternal _ f                                => .node fun _ : Unit => .node fun r => (f r).task
  | collectAll _ _ _ _ children f                    => .node fun
    | some j => (children j).task
    | none   => .node fun r => (f r).task
  | collectAny _ _ _ _ children f                    => .node fun
    | some j => (children j).task
    | none   => .node fun r => (f r).task

namespace Stage

def tasks : Stage ε α ξ k → Multiset Task
  | initial body | running body | suspended body => {body.task}
  | awaiting _ f | external f                    => {.node fun r => (f r).task}
  | collectAll _ f                               => {.node fun r => (f r).task}
  | collectAny _ f                               => {.node fun r => (f r).task}
  | final                                        => 0

def weight : Stage ε α ξ k → Nat
  | initial _ | suspended _ => 1
  | _                       => 0

end Stage

namespace Cell

def tasks : Cell ε α ξ θ χ → Multiset Task
  | lazy f                        => f.stage.tasks
  | collectAll _ children _ state => ∑ j, if (state.child j).unstarted then {(children j).task} else 0
  | collectAny _ children _ state => ∑ j, if (state.child j).unstarted then {(children j).task} else 0
  | _                             => 0

-- The steps up to the next task: those of an awaiter count as many as come of the start of a child.
def weight : Cell ε α ξ θ χ → Nat
  | lazy f               => f.stage.weight
  | via _ _ resumed      => if resumed then 0 else 2
  | launch _ _ _ awaiting => if awaiting then 1 else 3
  | collectAll _ _ _ state => 6 * state.rank
  | collectAny _ _ _ state => 6 * state.rank
  | destroyed            => 0

end Cell

def Place.weight : Place ξ θ χ → Nat
  | running _ => 0
  | _         => 1

namespace Config

def tasks (s : Config ε α ξ θ χ) : Multiset Task :=
  (s.cells.map (·.tasks)).sum

def weight (s : Config ε α ξ θ χ) : Nat :=
  (s.cells.map (·.weight)).sum + (s.tokens.map (·.place.weight)).sum

def Less (s₂ s₁ : Config ε α ξ θ χ) : Prop :=
  Workload.Less (s₂.tasks, s₂.weight) (s₁.tasks, s₁.weight)

end Config

variable {m : Setup ε α ξ θ χ} {s s₁ s₂ : Config ε α ξ θ χ} {x y : Cell ε α ξ θ χ} {a : Task}

-- How the steps of a configuration change its load.

theorem tasks_set (y : Cell ε α ξ θ χ) (h : s.cells[c]? = some x) : (s.set c y).tasks + x.tasks = s.tasks + y.tasks :=
  Count.sum_map_set (·.tasks) y h

theorem tasks_add : (s.add y).tasks = s.tasks + y.tasks := by
  simp [Config.tasks, Config.add]

theorem tasks_schedule : (s.schedule e n accept).tasks = s.tasks := by
  cases e
  case none => rfl
  case some => cases accept <;> rfl

theorem tasks_submit : (s.submit e context n accept).tasks = s.tasks := by
  cases accept <;> rfl

theorem weight_set (y : Cell ε α ξ θ χ) (h : s.cells[c]? = some x) :
    (s.set c y).weight + x.weight = s.weight + y.weight := by
  have := Count.sum_map_set (·.weight) y h
  simp only [Config.weight, Config.set]
  omega

theorem weight_add : (s.add y).weight = s.weight + y.weight := by
  simp only [Config.weight, Config.add, List.map_append, List.sum_append, List.map_cons, List.map_nil,
    List.sum_cons, List.sum_nil]
  omega

theorem weight_put : (s.put p n).weight = s.weight + p.weight := by
  simp only [Config.weight, Config.put, List.map_append, List.sum_append, List.map_cons, List.map_nil,
    List.sum_cons, List.sum_nil]
  omega

theorem weight_take (h : s.tokens[i]? = some tok) : (s.take i).weight + tok.place.weight = s.weight := by
  have := Count.sum_map_eraseIdx (·.place.weight) h
  simp only [Config.weight, Config.take]
  omega

theorem weight_submit : (s.submit e context n accept).weight ≤ s.weight + 1 := by
  cases accept
  case true  => exact weight_put.le
  case false => exact Nat.le_add_right ..

theorem weight_schedule : (s.schedule e n accept).weight ≤ s.weight + 1 := by
  cases e
  case none => exact Nat.le_add_right ..
  case some => exact weight_submit

theorem wrap_tasks {executor_ : Option ξ} {t : θ} {c : Nat} : (m.wrap s reschedule executor_ t c).1.tasks = s.tasks := by
  cases reschedule
  case false => rfl
  case true  => exact tasks_add.trans (add_zero _)

-- A cell reaches the next of its tasks, and may have created cells with others before.
theorem less_set {tasks : Multiset Task} (hc : s.cells[c]? = some x) (hs : s.tasks = s₁.tasks + tasks)
    (h₂ : s₂.tasks = (s.set c y).tasks) (hx : x.tasks = {a}) (ht : ∀ b ∈ tasks + y.tasks, b.After a) : s₂.Less s₁ := by
  refine .task ht ?_
  have := tasks_set y hc
  rw [h₂, ← hx, this, hs, add_assoc]

theorem less_move {b : Task} (hc : s₁.cells[c]? = some x) (h₂ : s₂.tasks = (s₁.set c y).tasks) (hx : x.tasks = {a})
    (hy : y.tasks = {b}) (h : b.After a) : s₂.Less s₁ :=
  less_set hc (add_zero _).symm h₂ hx (by simpa [hy] using h)

theorem less_proceed {f : Frame ε α ξ θ k} {body : Body ε α ξ k} (hc : s.cells[c]? = some (.lazy f))
    (hp : f.stage.tasks = {a}) (h : body.task.After a) : (s.proceed t c f body).Less s :=
  less_move hc rfl hp rfl h

theorem less_final {f : Frame ε α ξ θ k} {result : Slot ε α k} (hc : s.cells[c]? = some (.lazy f))
    (hp : f.stage.tasks = {a}) (hf : (s.finalSuspend t c f result).fault = none) : (s.finalSuspend t c f result).Less s := by
  simp only [Config.finalSuspend] at hf ⊢
  split
  case h_1 h => simp [h, Config.fail] at hf
  case h_2   => exact less_set hc (add_zero _).symm rfl hp (by simp [Cell.tasks, Stage.tasks])

theorem forall_mem_pair {b b' : Task} (h : b.After a) (h' : b'.After a) :
    ∀ c ∈ ({b} : Multiset Task) + {b'}, c.After a := by
  intro c hc
  obtain hc | hc := Multiset.mem_add.mp hc
  · exact Multiset.mem_singleton.mp hc ▸ h
  · exact Multiset.mem_singleton.mp hc ▸ h'

theorem mem_children {children : Fin n → Body ε α ξ k} {p : Fin n → Bool} {b : Task}
    (h : b ∈ ∑ j, if p j then ({(children j).task} : Multiset Task) else 0) : ∃ j, (children j).task = b := by
  obtain ⟨j, _, hj⟩ := Multiset.mem_sum.mp h
  split at hj
  case isTrue  => exact ⟨j, (Multiset.mem_singleton.mp hj).symm⟩
  case isFalse => exact absurd hj (Multiset.notMem_zero b)

theorem exec_less {f : Frame ε α ξ θ k} (hc : s₁.cells[c]? = some (.lazy f)) (hp : f.stage.tasks = {body.task})
    (hs : m.exec s₁ t c env f body = some s₂) (hf : s₂.fault = none) : s₂.Less s₁ := by
  have hvia : (s₁.add (m.via f.executor_ t c)).tasks = s₁.tasks := tasks_add.trans (add_zero _)
  cases body <;> simp only [Setup.exec] at hs <;> simp only [Body.task] at hp
  case coReturn        => cases hs; exact less_final hc hp hf
  case coReturnVoid    => cases hs; exact less_final hc hp hf
  case throw           => cases hs; exact less_final hc hp hf
  case currentExecutor => cases hs; exact less_proceed hc hp (Task.after_sub f.executor_ rfl)
  case yield           => cases hs; exact less_move hc tasks_schedule hp rfl (Task.after_sub () rfl)
  case schedule        =>
    split at hs <;> cases hs
    case isTrue  => exact less_proceed hc hp (Task.after_sub () rfl)
    case isFalse => exact less_move hc tasks_submit hp rfl (Task.after_sub () rfl)
  case scheduleAfter   => cases hs; exact less_move hc tasks_submit hp rfl (Task.after_sub () rfl)
  case await child g   =>
    cases hs
    exact less_set (Holding.getElem?_add hc) tasks_add rfl hp
      (forall_mem_pair (Task.after_sub (some ()) rfl) (Task.after_sub none rfl))
  case awaitVia child g =>
    cases hs
    refine less_set (Holding.getElem?_add (Holding.getElem?_add hc)) (tasks_add.trans ?_) tasks_schedule hp
      (forall_mem_pair (Task.after_sub (some ()) rfl) (Task.after_sub none rfl))
    rw [hvia]
    rfl
  case awaitExternal type g =>
    split at hs
    case h_2 =>
      cases hs
      refine less_set (Holding.getElem?_add hc) (hvia.trans (add_zero _).symm) rfl hp fun b hb => ?_
      rw [zero_add] at hb
      exact Multiset.mem_singleton.mp hb ▸ Task.after_sub () rfl
    case h_3 => split at hs <;> cases hs; exact less_proceed hc hp (Task.after_sub_sub () _ rfl rfl)
    all_goals
      cases hs
      exact less_proceed hc hp (Task.after_sub_sub () _ rfl rfl)
  case collectAll n para reschedule executors children g =>
    split at hs <;> cases hs
    case isTrue  => exact less_proceed hc hp (Task.after_sub_sub none [] rfl rfl)
    case isFalse =>
      refine less_set (Holding.getElem?_add (Holding.getElem?_wrap m _ _ t c hc)) (tasks_add.trans (by rw [wrap_tasks])) rfl hp
        fun b hb => ?_
      obtain hb | hb := Multiset.mem_add.mp hb
      · obtain ⟨j, rfl⟩ := mem_children hb
        exact Task.after_sub (some j) rfl
      · exact Multiset.mem_singleton.mp hb ▸ Task.after_sub none rfl
  case collectAny n kind reschedule executors children g =>
    split at hs <;> cases hs
    case isTrue     => simp [Config.fail] at hf
    case isFalse hn =>
      refine less_set (Holding.getElem?_add (Holding.getElem?_wrap m _ _ t c hc)) (tasks_add.trans (by rw [wrap_tasks])) rfl hp
        fun b hb => ?_
      obtain hb | hb := Multiset.mem_add.mp hb
      · obtain ⟨j, rfl⟩ := mem_children hb
        exact Task.after_sub (some j) rfl
      · exact Multiset.mem_singleton.mp hb ▸ Task.after_sub none rfl

-- A coroutine that is at its end has no tasks.
theorem load_destroy {f : Frame ε α ξ θ k} (hc : s.cells[c]? = some (.lazy f)) (hf : f.stage.isFinal) :
    (s.destroy c).tasks = s.tasks ∧ (s.destroy c).weight = s.weight := by
  have h₁ := tasks_set .destroyed hc
  have h₂ := weight_set .destroyed hc
  cases hp : f.stage <;> simp only [hp, Stage.isFinal, Bool.false_eq_true] at hf
  simp only [Cell.tasks, Cell.weight, Stage.tasks, Stage.weight, hp, add_zero] at h₁ h₂
  exact ⟨h₁, h₂⟩

-- A coroutine that has been suspended for a while has its task still before it.
theorem less_resume {f : Frame ε α ξ θ k} {body : Body ε α ξ k} (hc : s.cells[c]? = some (.lazy f))
    (hf : f.stage.tasks = {body.task}) (hw : f.stage.weight = 1) : (s.proceed t c f body).Less s := by
  have h₁ := tasks_set (.lazy { f with stage := .running body, thread := some t }) hc
  have h₂ := weight_set (.lazy { f with stage := .running body, thread := some t }) hc
  have h₃ : (s.proceed t c f body).weight = _ := weight_put
  refine .rest (add_right_cancel (h₁.trans (congrArg (s.tasks + ·) hf.symm))) ?_
  have h₄ : (Stage.running body : Stage ε α ξ k).weight = 0 := rfl
  simp only [Cell.weight, hw, h₄, Place.weight, Config.enter] at h₂ h₃ ⊢
  omega

theorem stepLazy_less {f : Frame ε α ξ θ k} (h : Holding s₁ [.coro c]) (hf : s₁.fault = none)
    (hc : s₁.cells[c]? = some (.lazy f)) (hs : m.stepLazy s₁ t c env f = some s₂) (hf' : s₂.fault = none) : s₂.Less s₁ := by
  cases hp : f.stage <;> simp only [Setup.stepLazy, hp] at hs
  case initial | suspended =>
    cases hs
    exact less_resume hc (by rw [hp]; rfl) (by rw [hp]; rfl)
  case running => exact exec_less hc (by rw [hp]; rfl) hs hf'
  case final   => contradiction
  case external g =>
    have ht : f.stage.tasks = {.node fun r => (g r).task} := by rw [hp]; rfl
    cases hs
    exact less_proceed hc ht (Task.after_sub _ rfl)
  case collectAll g =>
    have ht : f.stage.tasks = {.node fun r => (g r).task} := by rw [hp]; rfl
    split at hs <;> cases hs
    exact less_proceed hc ht (Task.after_sub _ rfl)
  case collectAny q g =>
    have ht : f.stage.tasks = {.node fun r => (g r).task} := by rw [hp]; rfl
    split at hs
    case h_2 => contradiction
    case h_1 reschedule children setup state hq =>
      split at hs
      case h_1 => cases hs; simp [Config.fail] at hf'
      case h_2 state' hw =>
        obtain ⟨r, _, rfl⟩ := Option.map_eq_some_iff.mp hs
        have hne : q ≠ c := by
          rintro rfl
          simp [hq] at hc
        have hq' := tasks_set (.collectAny reschedule children setup state') hq
        simp only [Cell.tasks, (CollectAnyAwaiter.Inv.awaitResume_eq hw).2.1] at hq'
        have hz := (add_right_cancel hq').trans (add_zero _).symm
        refine less_set (Holding.getElem?_set hne hc) hz rfl ht ?_
        intro b hb
        rw [zero_add] at hb
        exact Multiset.mem_singleton.mp hb ▸ Task.after_sub r rfl
  case awaiting child g =>
    have ht : f.stage.tasks = {.node fun r => (g r).task} := by rw [hp]; rfl
    split at hs <;> cases hs
    case h_2 => simp [Config.fail] at hf'
    case h_1 r hr =>
      have hch : (Cell.lazy f : Cell ε α ξ θ χ).child = some child := by simp [Cell.child, Stage.child, hp]
      have ha := (h.awaits_child hc hch).left
      simp only [Config.result] at hr
      split at hr
      case h_2 => contradiction
      case h_1 f' hf' =>
        have hne : c ≠ child := by
          rintro rfl
          cases hf'.symm.trans hc
          simpa [h.alive hf hc] using h.final hf ha hc
        have hd := load_destroy (s := s₁.proceed t c f (g r)) (Holding.getElem?_set hne hf') (h.isFinal hf ha hf')
        exact less_move hc hd.left ht rfl (Task.after_sub r rfl)

-- The steps up to the next task.

theorem less_rest {w : Nat} (hc : s.cells[c]? = some x) (hy : y.tasks = x.tasks) (hw : y.weight + w < x.weight)
    (h₁ : s₂.tasks = (s.set c y).tasks) (h₂ : s₂.weight ≤ (s.set c y).weight + w) : s₂.Less s := by
  have h₃ := tasks_set y hc
  have h₄ := weight_set y hc
  rw [hy] at h₃
  exact .rest (h₁.trans (add_right_cancel h₃)) (by omega)

-- A child is started, so that its task is that of a coroutine of its own.
theorem less_start {body : Body ε α ξ k} {t : θ} (hc : s.cells[c]? = some x) (hy : y.tasks + {body.task} = x.tasks)
    (hw : y.weight + 4 < x.weight) (h₁ : s₁.tasks = (s.set c y).tasks) (h₂ : s₁.weight = (s.set c y).weight) :
    (s₁.start t reschedule body executor_ callback).Less s := by
  have h₃ := tasks_set y hc
  have h₄ := weight_set y hc
  have hl : ∀ l, (Cell.launch reschedule l callback false : Cell ε α ξ θ χ).weight = 3 := fun _ => rfl
  have hn : (Cell.lazy (.new body executor_ none none) : Cell ε α ξ θ χ).weight = 1 := rfl
  refine .rest (add_right_cancel (b := x.tasks) ?_) ?_
  · calc (s₁.start t reschedule body executor_ callback).tasks + x.tasks
      _ = s₁.tasks + 0 + {body.task} + x.tasks    := congrArg (· + x.tasks) (tasks_add.trans (congrArg (· + _) tasks_add))
      _ = (s.set c y).tasks + x.tasks + {body.task} := by rw [add_zero, h₁, add_right_comm]
      _ = s.tasks + (y.tasks + {body.task})       := by rw [h₃, add_assoc]
      _ = s.tasks + x.tasks                       := by rw [hy]
  · simp only [Config.start, weight_put, weight_add, hl, hn, Place.weight]
    omega

theorem stepVia_less (hc : s.cells[c]? = some (.via context continuation false)) :
    (m.stepVia (s.set c (.via context continuation true)) t env context continuation).Less s := by
  simp only [Setup.stepVia]
  split
  case h_1 => exact less_rest (y := .via _ _ true) (w := 0) hc rfl (by simp [Cell.weight]) rfl weight_put.le
  case h_2 e context =>
    split
    case isTrue  => exact less_rest (y := .via _ _ true) (w := 0) hc rfl (by simp [Cell.weight]) rfl weight_put.le
    case isFalse => exact less_rest (y := .via _ _ true) (w := 1) hc rfl (by simp [Cell.weight]) tasks_submit weight_submit

-- The awaiters of vectors of children take their steps, each of which counts as many as come of the
-- start of a child.

section CollectAll

variable {children : Fin n → Body ε α ξ k} {setup : CollectAllAwaiter.Setup n Nat ξ}
  {state state' : CollectAllAwaiter.Config n ε (Option α) Nat ξ}

theorem moveAll_less (hq : s.cells[q]? = some (.collectAll reschedule children setup state))
    (hr : state'.rank < state.rank) (hc : ∀ i, (state'.child i).unstarted = (state.child i).unstarted)
    (h₁ : s₂.tasks = (s.set q (.collectAll reschedule children setup state')).tasks)
    (h₂ : s₂.weight ≤ (s.set q (.collectAll reschedule children setup state')).weight + 1) : s₂.Less s := by
  refine less_rest hq ?_ ?_ h₁ h₂
  · simp only [Cell.tasks, hc]
  · simp only [Cell.weight]
    omega

theorem startAll_less {t : θ} (hq : s.cells[q]? = some (.collectAll reschedule children setup state))
    (hr : state'.rank < state.rank) (hc : state'.child = Function.update state.child j .running)
    (hj : (state.child j).unstarted)
    (h₁ : s₁.tasks = (s.set q (.collectAll reschedule children setup state')).tasks)
    (h₂ : s₁.weight = (s.set q (.collectAll reschedule children setup state')).weight) :
    (s₁.start t reschedule (children j) executor_ callback).Less s := by
  refine less_start hq ?_ ?_ h₁ h₂
  · have := Count.sum_update_of (fun i (pc : CollectAllAwaiter.ChildPc ε (Option α) Nat) =>
      if pc.unstarted then ({(children i).task} : Multiset Task) else 0) state.child j .running
    have hrun : (.running : CollectAllAwaiter.ChildPc ε (Option α) Nat).unstarted = false := rfl
    simpa only [Cell.tasks, hc, hj, hrun, if_true, Bool.false_eq_true, if_false, add_zero] using this
  · simp only [Cell.weight]
    omega

end CollectAll

section CollectAny

variable {children : Fin n → Body ε α ξ k} {setup : CollectAnyAwaiter.Setup n Nat ξ}
  {state state' : CollectAnyAwaiter.Config n ε (Option α) Nat ξ}

theorem moveAny_less (hq : s.cells[q]? = some (.collectAny reschedule children setup state))
    (hr : state'.rank < state.rank) (hc : ∀ i, (state'.child i).unstarted = (state.child i).unstarted)
    (h₁ : s₂.tasks = (s.set q (.collectAny reschedule children setup state')).tasks)
    (h₂ : s₂.weight ≤ (s.set q (.collectAny reschedule children setup state')).weight + 1) : s₂.Less s := by
  refine less_rest hq ?_ ?_ h₁ h₂
  · simp only [Cell.tasks, hc]
  · simp only [Cell.weight]
    omega

theorem startAny_less {t : θ} (hq : s.cells[q]? = some (.collectAny reschedule children setup state))
    (hr : state'.rank < state.rank) (hc : state'.child = Function.update state.child j .running)
    (hj : (state.child j).unstarted)
    (h₁ : s₁.tasks = (s.set q (.collectAny reschedule children setup state')).tasks)
    (h₂ : s₁.weight = (s.set q (.collectAny reschedule children setup state')).weight) :
    (s₁.start t reschedule (children j) executor_ callback).Less s := by
  refine less_start hq ?_ ?_ h₁ h₂
  · have := Count.sum_update_of (fun i (pc : CollectAnyAwaiter.ChildPc ε (Option α)) =>
      if pc.unstarted then ({(children i).task} : Multiset Task) else 0) state.child j .running
    have hrun : (.running : CollectAnyAwaiter.ChildPc ε (Option α)).unstarted = false := rfl
    simpa only [Cell.tasks, hc, hj, hrun, if_true, Bool.false_eq_true, if_false, add_zero] using this
  · simp only [Cell.weight]
    omega

end CollectAny

theorem update_unstarted {child child' : Fin n → β} {b : β} {p : β → Bool} (h : child' = Function.update child j b)
    (hp : p b = p (child j)) (i : Fin n) : p (child' i) = p (child i) := by
  subst h
  by_cases hi : i = j
  · subst hi
    rw [Function.update_self, hp]
  · rw [Function.update_of_ne hi]

theorem stepStarter_less (h : Holding s₁ [.starter q]) (hs : Setup.stepStarter s₁ t q env = some s₂) : s₂.Less s₁ := by
  simp only [Setup.stepStarter] at hs
  split at hs <;> try contradiction
  case h_1 state hq =>
    obtain ⟨state', hw, rfl⟩ := Option.map_eq_some_iff.mp hs
    have hr := CollectAllAwaiter.rank_starter (h.invAll hq) hw
    cases (h.invAll hq).stepStarter_cases hw
    case launch j pc h₁ h₂ h₃ h₄ h₅ h₆ h₇ =>
      obtain rfl | rfl := h₄ <;> simp only [h₁, h₅, Function.update_self]
      case inl =>
        refine moveAll_less hq hr (update_unstarted h₅ (by rw [h₃]; rfl)) tasks_schedule ?_
        exact weight_schedule.trans (Nat.add_le_add_right weight_put.le 1)
      case inr => exact startAll_less hq hr h₅ (by rw [h₃]; rfl) rfl weight_put
    case resume h₁ h₂ h₃ h₄ h₅ h₆ =>
      simp only [h₁]
      exact moveAll_less hq hr (by simp [h₅]) rfl (weight_put.le.trans (Nat.le_add_right ..))
    case other h₁ h₂ h₃ h₄ h₅ h₆ =>
      have hc (i) : (state'.child i).unstarted = (state.child i).unstarted := by rw [h₄]
      split
      case h_1 hl => exact absurd hl (h₁ _)
      case h_2 hl => exact absurd hl (h₂ _)
      case h_3    => exact moveAll_less hq hr hc rfl (Nat.le_add_right ..)
      case h_4    => exact moveAll_less hq hr hc rfl (weight_put.le.trans (Nat.le_add_right ..))
  case h_2 state hq =>
    obtain ⟨state', hw, rfl⟩ := Option.map_eq_some_iff.mp hs
    have hr := CollectAnyAwaiter.rank_starter (h.invAny hq) hw
    cases (h.invAny hq).stepStarter_cases hw
    case start j h₁ h₂ h₃ h₄ h₅ h₆ =>
      simp only [h₁]
      exact startAny_less hq hr h₄ (by rw [h₃]; rfl) rfl weight_put
    case other h₁ h₂ h₃ h₄ h₅ =>
      have hc (i) : (state'.child i).unstarted = (state.child i).unstarted := by rw [h₃]
      split
      case h_1 hl => exact absurd hl (h₁ _)
      case h_2    => exact moveAny_less hq hr hc rfl (Nat.le_add_right ..)
      case h_3    => exact moveAny_less hq hr hc rfl (weight_put.le.trans (Nat.le_add_right ..))

theorem stepChild_less (h : Holding s₁ [.child q j]) (hs : Setup.stepChild s₁ t q j = some s₂) : s₂.Less s₁ := by
  simp only [Setup.stepChild] at hs
  split at hs <;> try contradiction
  case h_1 state hq =>
    split at hs <;> try contradiction
    case isTrue hj =>
    split at hs
    case h_1 hp =>
      obtain ⟨state', hw, rfl⟩ := Option.map_eq_some_iff.mp hs
      have hr := CollectAllAwaiter.rank_step (a := .runTask ⟨j, hj⟩) (h.invAll hq) hw
      exact startAll_less hq hr (CollectAllAwaiter.Inv.runTask_eq hw).2.1 (by rw [hp]; rfl) rfl rfl
    case h_2 hp =>
      obtain ⟨state', hw, rfl⟩ := Option.map_eq_some_iff.mp hs
      have hr := CollectAllAwaiter.rank_child hw
      have hc (i) : (state'.child i).unstarted = (state.child i).unstarted := by
        cases ((h.invAll hq).stepChild_cases hw).left
        case resume h₁ h₂ _ _ => exact update_unstarted h₂ (by rw [h₁]; rfl) i
        case other pc h₁ _ _ h₂ _ =>
          refine update_unstarted h₂ ?_ i
          rw [CollectAllAwaiter.ChildPc.unstarted_of_pending h₁ hp]
          rfl
      split
      case h_2 => exact moveAll_less hq hr hc rfl (Nat.le_add_right ..)
      all_goals exact moveAll_less hq hr hc rfl (weight_put.le.trans (Nat.le_add_right ..))
  case h_2 state hq =>
    split at hs <;> try contradiction
    case isTrue hj =>
    obtain ⟨state', hw, rfl⟩ := Option.map_eq_some_iff.mp hs
    have hr := CollectAnyAwaiter.rank_child hw
    have hc (i) : (state'.child i).unstarted = (state.child i).unstarted := by
      cases ((h.invAny hq).stepChild_cases hw).left
      case resume h₁ h₂ _ _ => exact update_unstarted h₂ (by rw [h₁]; rfl) i
      case other pc h₁ _ _ hn _ h₂ _ =>
        refine update_unstarted h₂ ?_ i
        rw [CollectAnyAwaiter.ChildPc.unstarted_of_ne hn, CollectAnyAwaiter.ChildPc.unstarted_of_pending h₁]
    split
    case h_2 => exact moveAny_less hq hr hc rfl (Nat.le_add_right ..)
    all_goals exact moveAny_less hq hr hc rfl (weight_put.le.trans (Nat.le_add_right ..))

-- A coroutine that `Start` has launched is left, together with its child.
theorem load_finish {f : Frame ε α ξ θ k} (hc : s.cells[c]? = some (.launch reschedule child callback true))
    (hch : s.cells[child]? = some (.lazy f)) (hf : f.stage.isFinal) :
    ((s.destroy c).destroy child).tasks = s.tasks ∧ ((s.destroy c).destroy child).weight + 1 = s.weight := by
  have hne : c ≠ child := by
    rintro rfl
    simp [hc] at hch
  have h₁ := tasks_set .destroyed hc
  have h₂ := weight_set .destroyed hc
  obtain ⟨h₃, h₄⟩ := load_destroy (s := s.destroy c) (Holding.getElem?_set hne hch) hf
  simp only [Cell.tasks, Cell.weight, add_zero, if_true] at h₁ h₂
  exact ⟨h₃.trans h₁, by rw [h₄]; exact h₂⟩

theorem stepLaunch_less (h : Holding s₁ [.coro c]) (hf : s₁.fault = none)
    (hc : s₁.cells[c]? = some (.launch reschedule child callback awaiting))
    (hs : Setup.stepLaunch s₁ t c env reschedule child callback awaiting = some s₂) (hf' : s₂.fault = none) :
    s₂.Less s₁ := by
  cases awaiting
  case false =>
    simp only [Setup.stepLaunch, Bool.false_eq_true, if_false] at hs
    split at hs
    case h_2 => contradiction
    case h_1 f hch =>
      have hne : c ≠ child := by
        rintro rfl
        simp [hc] at hch
      have h₁ := tasks_set (.launch reschedule child callback true) hc
      have h₂ := weight_set (.launch reschedule child callback true) hc
      simp only [Cell.tasks, Cell.weight, add_zero, if_true, Bool.false_eq_true, if_false] at h₁ h₂
      have h₃ (thread : Option θ) := tasks_set (.lazy { f with continuation_ := some c, thread })
        (Holding.getElem?_set (y := .launch reschedule child callback true) hne hch)
      have h₄ (thread : Option θ) := weight_set (.lazy { f with continuation_ := some c, thread })
        (Holding.getElem?_set (y := .launch reschedule child callback true) hne hch)
      split at hs <;> cases hs
      case isTrue  =>
        refine .rest (tasks_schedule.trans ((add_right_cancel (h₃ f.thread)).trans h₁)) ?_
        refine Nat.lt_of_le_of_lt weight_schedule ?_
        have : _ + f.stage.weight = _ + f.stage.weight := h₄ f.thread
        omega
      case isFalse =>
        refine .rest ((add_right_cancel (h₃ (some t))).trans h₁) ?_
        have : _ + f.stage.weight = _ + f.stage.weight := h₄ (some t)
        rw [weight_put]
        simp only [Place.weight]
        omega
  case true =>
    simp only [Setup.stepLaunch, if_true] at hs
    split at hs <;> try contradiction
    case h_2 => cases hs; simp [Config.fail] at hf'
    case h_1 r hr =>
      obtain ⟨s, hcb, rfl⟩ := Option.map_eq_some_iff.mp hs
      simp only [Config.result] at hr
      split at hr <;> try contradiction
      case h_1 f hch =>
      have hfin := h.isFinal hf (h.awaits_child hc rfl).left hch
      cases callback
      case caller =>
        cases hcb
        obtain ⟨h₁, h₂⟩ := load_finish hc hch hfin
        exact .rest h₁ (by rw [← h₂]; exact Nat.lt_succ_self _)
      case child q j =>
        simp only [Setup.callback] at hcb
        split at hcb <;> try contradiction
        case h_1 state hq =>
          split at hcb <;> try contradiction
          case isTrue hj =>
          obtain ⟨state', hw, rfl⟩ := Option.map_eq_some_iff.mp hcb
          obtain ⟨h₁, h₂⟩ := load_finish (s := (s₁.set q (.collectAll _ _ _ state')).put (.running t) (.child q j))
            (Holding.getElem?_set (by rintro rfl; simp [hq] at hc) hc)
            (Holding.getElem?_set (by rintro rfl; simp [hq] at hch) hch) hfin
          have hr := CollectAllAwaiter.rank_step (a := .complete ⟨j, hj⟩ r) (h.invAll hq) hw
          obtain ⟨h₃, h₄, _⟩ := CollectAllAwaiter.Inv.complete_eq hw
          rw [weight_put] at h₂
          simp only [Place.weight] at h₂
          exact moveAll_less hq hr (update_unstarted h₄ (by rw [h₃]; rfl)) h₁ (by omega)
        case h_2 state hq =>
          split at hcb <;> try contradiction
          case isTrue hj =>
          obtain ⟨state', hw, rfl⟩ := Option.map_eq_some_iff.mp hcb
          obtain ⟨h₁, h₂⟩ := load_finish (s := (s₁.set q (.collectAny _ _ _ state')).put (.running t) (.child q j))
            (Holding.getElem?_set (by rintro rfl; simp [hq] at hc) hc)
            (Holding.getElem?_set (by rintro rfl; simp [hq] at hch) hch) hfin
          have hr := CollectAnyAwaiter.rank_step (a := .complete ⟨j, hj⟩ r) (h.invAny hq) hw
          obtain ⟨h₃, h₄, _⟩ := CollectAnyAwaiter.Inv.complete_eq hw
          rw [weight_put] at h₂
          simp only [Place.weight] at h₂
          exact moveAny_less hq hr (update_unstarted h₄ (by rw [h₃]; rfl)) h₁ (by omega)

theorem stepNode_less (h : Holding s₁ [n]) (hf : s₁.fault = none) (hs : m.stepNode s₁ t env n = some s₂)
    (hf' : s₂.fault = none) : s₂.Less s₁ := by
  cases n <;> simp only [Setup.stepNode] at hs
  case starter => exact stepStarter_less h hs
  case child   => exact stepChild_less h hs
  case coro c  =>
    simp only [Setup.stepCoro] at hs
    split at hs <;> try contradiction
    case h_1 hc => exact stepLazy_less h hf hc hs hf'
    case h_2 hc =>
      split at hs <;> cases hs
      case isFalse hr =>
        rw [Bool.not_eq_true] at hr
        exact stepVia_less (hr ▸ hc)
    case h_3 hc => exact stepLaunch_less h hf hc hs hf'

-- Each step decreases the load, and a failure is the last one. Thus, all runs end.
theorem terminates (m : Setup ε α ξ θ χ) : m.system.Terminates := by
  refine System.terminates wellFounded_less (μ := fun s => (s.tasks, s.weight + if s.fault.isNone then 1 else 0))
    fun {s₁ a s₂} hr hs => ?_
  have i := Inv.reachable hr
  simp only [Setup.system] at hs
  split at hs
  case isFalse => contradiction
  case isTrue hf =>
    have hrun {tok : Token ξ θ χ} {j : Nat} {t : θ} (ht : s₁.tokens[j]? = some tok) (hp : tok.place.weight = 1) :
        Workload.Less (((s₁.take j).put (.running t) tok.node).tasks,
          ((s₁.take j).put (.running t) tok.node).weight + if s₁.fault.isNone then 1 else 0) (s₁.tasks, s₁.weight + 1) := by
      have h₁ := weight_take ht
      have h₂ : ((s₁.take j).put (.running t) tok.node).weight = _ + 0 := weight_put
      refine .rest rfl ?_
      simp only [hf, Option.isNone_none, if_true]
      omega
    simp only [hf, Option.isNone_none, if_true]
    cases a <;> simp only [Setup.step] at hs
    case run j t =>
      split at hs
      case h_1 ht => split at hs <;> cases hs; exact hrun ht rfl
      case h_2 ht => cases hs; exact hrun ht rfl
      case h_3    => contradiction
    case step j env =>
      split at hs
      case h_2 => contradiction
      case h_1 ht =>
        obtain ⟨s, hn, rfl⟩ := Option.map_eq_some_iff.mp hs
        have hw := weight_take ht
        simp only [Place.weight, add_zero] at hw
        split
        case h_1 hf' =>
          have : Workload.Less (s.tasks, s.weight + 1) ((s₁.take j).tasks, (s₁.take j).weight + 1) :=
            (stepNode_less (i.holding.take ht) hf hn hf').add 1
          rw [hw] at this
          simp only [hf', Option.isNone_none, if_true]
          exact this
        case h_2 => exact .rest rfl (Nat.lt_succ_self _)

end Lazy
end AsyncSimple
