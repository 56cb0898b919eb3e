import AsyncSimple.Coro.Executorless
import AsyncSimple.Coro.Theorems.Marking
import AsyncSimple.Coro.Theorems.Stranding
import AsyncSimple.Coro.Theorems.Termination

open Transition

namespace AsyncSimple

-- No child of an awaiter is bound to an executor.

namespace CollectAllAwaiter

variable {n : Nat} {κ ξ : Type} {m : Setup n κ ξ}

def Setup.Unbound (m : Setup n κ ξ) : Prop :=
  m.executor = none ∧ ∀ j, m.input j = none

theorem Setup.Unbound.bound (u : m.Unbound) (j : Fin n) : m.bound j = none := by
  simp [Setup.bound, u.left, u.right j]

end CollectAllAwaiter

namespace CollectAnyAwaiter

variable {n : Nat} {κ ξ : Type} {m : Setup n κ ξ}

def Setup.Unbound (m : Setup n κ ξ) : Prop :=
  m.executor = none ∧ ∀ j, m.input j = none

theorem Setup.Unbound.bound (u : m.Unbound) (j : Fin n) : m.bound j = none := by
  simp [Setup.bound, u.left, u.right j]

end CollectAnyAwaiter

namespace Lazy

variable {ε α ξ θ χ : Type}

def Stage.Unbound : Stage ε α ξ k → Prop
  | initial body | running body | suspended body => body.Unbound
  | awaiting _ f                                 => ∀ r, (f r).Unbound
  | external f                                   => ∀ r, (f r).Unbound
  | collectAll _ f                               => ∀ r, (f r).Unbound
  | collectAny _ f                               => ∀ r, (f r).Unbound
  | final                                        => True

def Frame.Unbound (f : Frame ε α ξ θ k) : Prop :=
  f.executor_ = none ∧ f.stage.Unbound

def Cell.Unbound : Cell ε α ξ θ χ → Prop
  | lazy f                                   => f.Unbound
  | via context _ _                          => context = none
  | launch reschedule _ _ _                  => reschedule = false
  | collectAll reschedule children setup _   => reschedule = false ∧ setup.Unbound ∧ ∀ j, (children j).Unbound
  | collectAny reschedule children setup _   => reschedule = false ∧ setup.Unbound ∧ ∀ j, (children j).Unbound
  | destroyed                                => True

-- Nothing is bound to an executor, or waits in one.
def unbound : Marking ε α ξ θ χ Unit where
  cell _ _ x     := x.Unbound
  token _ tok    := ∀ e context, tok.place ≠ .queued e context
  result _       := True
  destroyed      := trivial
  cell_mono _ _  := id
  token_mono _   := id

variable {m : Setup ε α ξ θ χ} {s s₁ s₂ : Config ε α ξ θ χ} {x : Cell ε α ξ θ χ} {env : Env ε α} {marks : List Unit}

theorem Stage.Unbound.body {stage : Stage ε α ξ k} {b : Body ε α ξ k} (h : stage.Unbound) (hp : stage.body = some b) :
    b.Unbound := by
  cases stage <;> cases hp <;> exact h

namespace Frame.Unbound

theorem stage {f : Frame ε α ξ θ k} (u : f.Unbound) (hp : f.stage = p) : p.Unbound :=
  hp ▸ u.right

theorem enter {f g : Frame ε α ξ θ k} {stage : Stage ε α ξ k} (u : f.Unbound)
    (he : g.executor_ = f.executor_) (hs : stage.Unbound) : (g.enter t stage).Unbound :=
  ⟨he.trans u.left, hs⟩

theorem running {f : Frame ε α ξ θ k} {body : Body ε α ξ k} (u : f.Unbound) (hb : body.Unbound) :
    (f.enter t (.running body)).Unbound :=
  u.enter rfl hb

theorem via {f : Frame ε α ξ θ k} (u : f.Unbound) (t : θ) (c : Nat) :
    (m.via f.executor_ t c).Unbound := by
  rw [u.left]
  rfl

theorem execs {f : Frame ε α ξ θ k} (u : f.Unbound) (hb : body.Unbound) :
    unbound.Execs m marks t c f body where
  finish _  := u.enter rfl trivial
  proceed h := by
    refine u.running ?_
    cases h
    case currentExecutor => exact u.left ▸ hb
    case schedule        => exact hb.elim
    case awaitExternal   => exact hb _
    case collectAll      => exact hb.right.right.right _
  leave h   := by
    cases h
    case yield he      => cases u.left.symm.trans he
    case schedule      => exact hb.elim
    case scheduleAfter => exact hb.elim
  await h   := by
    cases h
    case await          =>
      exact ⟨[()], rfl, u.enter rfl hb.right, by simp [unbound], fun _ _ => Marking.single (I := unbound) ⟨u.left, hb.left⟩⟩
    case awaitVia       => exact hb.elim
    case awaitExternal  =>
      exact ⟨[()], rfl, u.enter rfl hb, by simp [unbound], fun _ _ => Marking.single (I := unbound) (u.via t c)⟩
    case collectAll hx  =>
      refine ⟨[()], rfl, u.enter rfl hb.right.right.right, by simp [unbound], fun _ _ => Marking.single (I := unbound) ?_⟩
      exact ⟨rfl, hx ▸ ⟨u.left, hb.right.left⟩, hb.right.right.left⟩
    case collectAny hx  =>
      refine ⟨[()], rfl, u.enter rfl hb.right.right.right, by simp [unbound], fun _ _ => Marking.single (I := unbound) ?_⟩
      exact ⟨rfl, hx ▸ ⟨u.left, hb.right.left⟩, hb.right.right.left⟩
    case collectAllVia  => exact absurd hb.left (by simp)
    case collectAnyVia  => exact absurd hb.left (by simp)

end Frame.Unbound

theorem sound_unbound : unbound.Sound m fun _ => True where
  begin _ hx _ hp             := hx.running (hx.right.body hp)
  external _ hx _ hp r        := hx.running (hx.stage hp r)
  await _ hx _ hp _ _ _       := hx.running (hx.stage hp _)
  collectAll _ hx _ hp _ _    := hx.running (hx.stage hp _)
  collectAny _ hx _ hp _ _    := hx.running (hx.stage hp _)
  exec _ _ hx _ hp _          := hx.execs (hx.stage hp)
  via hx                      := hx
  launch hx                   := hx
  child _ _ _ hx _            := hx
  deliver _ _ _ _             := trivial
  complete _ _ _ _ hx h       := by cases h <;> exact hx
  moves hx h                  := by cases h <;> exact hx
  start _ hx h _              := by
    cases h
    case collectAll j _ =>
      obtain ⟨hr, hu, hch⟩ := hx
      exact ⟨(), (), hr, ⟨hu.bound j, hch j⟩, by simp [unbound]⟩
    case collectAny j _ =>
      obtain ⟨hr, hu, hch⟩ := hx
      exact ⟨(), (), hr, ⟨hu.bound j, hch j⟩, by simp [unbound]⟩
  run _ _                     := by simp [unbound]
  next _ _ _ _                := by simp [unbound]
  resume _ _                  := by simp [unbound]
  checkin hx                  := by contradiction
  schedule hx _ _             := by contradiction
  launched _ _ _              := by simp [unbound]
  queue _ hx _ he             := by cases hx.right.left.left.symm.trans he

namespace Unbound

theorem init (hm : m.Unbound) : Marked unbound [(), ()] (m.init : Config ε α ξ θ χ) where
  length      := rfl
  cells c x hx := by
    obtain _ | _ | _ := c <;> cases hx
    case zero      => exact hm.reschedule
    case succ.zero => exact ⟨hm.executor_, hm.program⟩
  tokens t h  := by simp [unbound, List.mem_singleton.mp h]
  refused _ h := by simp [Setup.init] at h
  delivered _ := fun _ => trivial

theorem reachable (hm : m.Unbound) (h : m.system.Reachable s) : ∃ marks, Marked unbound marks s :=
  ((init hm).reachable sound_unbound h).imp fun _ => And.right

theorem refused_eq_nil (u : Marked unbound marks s) : s.refused = [] := by
  apply List.eq_nil_iff_forall_not_mem.mpr
  intro a ha
  obtain ⟨e, context, h⟩ := u.refused a ha
  exact h e context rfl

-- A step fails if and only if it is not guarded.
theorem fails_eq (u : Marked unbound marks s) : s.fails a = !s.guardedNode a := by
  cases a <;> try rfl
  case coro c =>
  simp only [Config.fails, Config.guardedNode]
  cases hc : s.cells[c]?
  case none   => rfl
  case some x =>
  have hx : x.Unbound := u.cells c x hc
  cases x <;> try rfl
  case launch =>
    cases hx
    rfl
  case lazy f =>
    simp only [Option.any_some, Option.all_some, Config.failsCell, Cell.guarded]
    cases hp : f.stage <;> try rfl
    case running body =>
    have hb := hx.stage hp
    cases body <;> try rfl
    case yield      => simp [Body.fails, Body.guarded, hx.left]
    case awaitVia   => exact hb.elim
    case collectAny => simp [Body.fails, Body.guarded]

theorem step (u : Marked unbound marks s₁) (w : Wired s₁) (i : Inv s₁) (h : m.system.step s₁ a = some s₂) :
    s₂.fault = none ↔ Guarded s₁ a := by
  obtain ⟨hf, h⟩ := Setup.step_cases h
  cases h
  case run               => exact iff_of_true hf rfl
  case step ht hs hf₂    =>
    have hn := (w.step_cases i hf ht hs).left
    rw [fails_eq u, hf₂] at hn
    refine iff_of_true hf₂ ?_
    simpa [Guarded, Config.guarded, ht] using hn
  case fail ht hs hf₂    =>
    have hn := (w.step_cases i hf ht hs).left
    rw [fails_eq u, hf₂] at hn
    refine iff_of_false (by simp [Config.fail]) ?_
    simpa [Guarded, Config.guarded, ht] using hn

-- A run is without a fault if and only if all of its steps are guarded.
theorem fault_eq_none_iff (hm : m.Unbound) (h : m.system.Reachable s) :
    s.fault = none ↔ (m.system.restrict Guarded).Reachable s := by
  constructor
  case mp =>
    intro hf
    induction h
    case init           => exact .init
    case step s₁ a s₂ h hs ih =>
      obtain ⟨_, u⟩ := reachable hm h
      have hg := (step u (.reachable h) (.reachable h) hs).mp hf
      exact (ih (Setup.step_cases hs).left).step (System.restrict_step.mpr ⟨hg, hs⟩)
  case mpr =>
    intro h
    cases h
    case init      => rfl
    case step h hs =>
      obtain ⟨hg, hs⟩ := System.restrict_step.mp hs
      have h := h.of_restrict
      obtain ⟨_, u⟩ := reachable hm h
      exact (step u (.reachable h) (.reachable h) hs).mpr hg

-- The code that is running, or that an external awaiter has been given, can take a step.
theorem exists_step {j : Nat} (u : Marked unbound marks s) (w : Wired s) (i : Inv s) (hf : s.fault = none)
    (ht : s.tokens[j]? = some tok) :
    (∃ t, (m.system.step s (.run j t)).isSome) ∨ ∃ env, (m.system.step s (.step j env)).isSome := by
  obtain ⟨p, a⟩ := tok
  cases p
  case queued    => exact absurd rfl (u.tokens _ (List.mem_of_getElem? ht) _ _)
  case external  => exact .inl ⟨m.thread, by simp [Setup.system, hf, Setup.step, ht]⟩
  case running   => exact .inr ⟨⟨true, .ready, .nothing⟩, w.step_isSome i hf rfl ht⟩

theorem tokens_eq_nil (u : Marked unbound marks s) (w : Wired s) (i : Inv s) (hf : s.fault = none)
    (hq : m.system.Quiescent s) : s.tokens = [] := by
  apply List.eq_nil_iff_forall_not_mem.mpr
  intro tok ht
  obtain ⟨j, ht⟩ := List.mem_iff_getElem?.mp ht
  obtain ⟨_, ha⟩ | ⟨_, ha⟩ := exists_step (m := m) u w i hf ht <;> simp [hq _] at ha

end Unbound

-- The functions of the library do not name an executor, if their arguments do not.

namespace Body

theorem unbound_sleep : (sleep : Body ε α ξ .void).Unbound :=
  trivial

variable {yield : Bool} {input : List (Body ε α ξ k')} {f : List (Try ε (Option α)) → Body ε α ξ k}

theorem unbound_awaitAll (hi : ∀ child ∈ input, child.Unbound) (hf : ∀ r, (f r).Unbound) : (awaitAll para input f).Unbound :=
  ⟨rfl, fun _ => rfl, fun _ => hi _ (List.get_mem ..), hf⟩

theorem unbound_windows (hi : ∀ child ∈ input, child.Unbound) (hf : ∀ r, (f r).Unbound) :
    (windows para max_concurrency yield f input output).Unbound := by
  fun_induction windows
  case case1 => exact hf _
  case case2 output child input ih =>
    have hn (tmp_output : List (Try ε (Option α))) :=
      ih tmp_output fun child hc => hi child (List.mem_cons_of_mem _ (List.mem_of_mem_drop hc))
    refine unbound_awaitAll (fun child hc => hi child ?_) fun tmp_output => ?_
    · rw [List.mem_cons] at hc ⊢
      exact hc.imp_right List.mem_of_mem_take
    · cases yield
      case false => exact hn tmp_output
      case true  => exact hn tmp_output

theorem unbound_collectAllWindowed (hi : ∀ child ∈ input, child.Unbound) (hf : ∀ r, (f r).Unbound) :
    (collectAllWindowed para max_concurrency yield input f).Unbound := by
  simp only [collectAllWindowed]
  split
  case isTrue  => exact unbound_awaitAll hi hf
  case isFalse => exact unbound_windows hi hf

end Body

-- No executor, result or continuation that is null has been used, and no assertion has failed. All code
-- that is left can take a step, and when there is none, each coroutine has got what it has waited for.
structure Config.Safe (m : Setup ε α ξ θ χ) (s : Config ε α ξ θ χ) : Prop where
  fault     : s.fault = none
  steps     : ∀ (j : Nat) tok, s.tokens[j]? = some tok →
    (∃ t, (m.system.step s (.run j t)).isSome) ∨ ∃ env, (m.system.step s (.step j env)).isSome
  delivered : m.system.Quiescent s → ∃ r, s.delivered = [r]
  suspended : m.system.Quiescent s → ∀ (c : Nat) x, s.cells[c]? = some x → x.isSuspended = false

theorem executorless_safe (hm : m.Unbound) :
    (∀ s, m.system.Reachable s → (s.Safe m ↔ (m.system.restrict Guarded).Reachable s)) ∧ m.system.Terminates := by
  refine ⟨fun s h => ?_, terminates m⟩
  obtain ⟨_, u⟩ := Unbound.reachable hm h
  have w := Wired.reachable h
  have i := Inv.reachable h
  rw [← Unbound.fault_eq_none_iff hm h]
  refine ⟨Config.Safe.fault, fun hf => ?_⟩
  exact {
    fault     := hf
    steps     := fun _ _ ht => Unbound.exists_step u w i hf ht
    delivered := fun hq =>
      (Config.Once.reachable h).delivered (i.needs_eq_zero (Unbound.refused_eq_nil u) (Unbound.tokens_eq_nil u w i hf hq))
    suspended := fun hq _ _ hx => i.not_suspended (Unbound.refused_eq_nil u) (Unbound.tokens_eq_nil u w i hf hq) hx }

-- Programs that are started without an executor.

def alone (program : Body Unit Unit Nat .void) : Setup Unit Unit Nat Nat Nat :=
  { workers program with executor_ := none }

def awaitWindowed (yield : Bool) : Body Unit Unit Nat .void :=
  .collectAllWindowed false 1 yield [.coReturnVoid, (.coReturnVoid : Body Unit Unit Nat .void)] fun _ => .coReturnVoid

def awaitNone : Body Unit Unit Nat .void :=
  .collectAny 0 .void false (fun _ => none) (fun _ => .coReturnVoid) fun _ => .coReturnVoid

-- The windows of one child each, after which the coroutine yields.
def awaitEach (yield : Bool) : Body Unit Unit Nat .void :=
  .awaitAll false [(.coReturnVoid : Body Unit Unit Nat .void)] fun _ =>
    let loop : Body Unit Unit Nat .void := .awaitAll false [(.coReturnVoid : Body Unit Unit Nat .void)] fun _ =>
      if yield then .yield .coReturnVoid else .coReturnVoid
    if yield then .yield loop else loop

theorem awaitWindowed_eq : awaitWindowed yield = awaitEach yield := by
  simp [awaitWindowed, awaitEach, Body.collectAllWindowed, Body.windows]

theorem unbound_awaitWindowed : (alone (awaitWindowed yield)).Unbound where
  executor_  := rfl
  reschedule := rfl
  program    := by
    have hb : (Body.coReturnVoid : Body Unit Unit Nat .void).Unbound := trivial
    suffices (awaitWindowed yield).Unbound from this
    refine Body.unbound_collectAllWindowed (fun child hc => ?_) fun _ => hb
    obtain rfl | hc := List.mem_cons.mp hc
    · exact hb
    · rw [List.mem_singleton.mp hc]
      exact hb

theorem executorless_unsafe :
    ((alone (awaitWindowed true)).Unbound ∧
      ∃ s, (alone (awaitWindowed true)).system.Reachable s ∧ s.fault = some .nullExecutor) ∧
    ((alone awaitNone).Unbound ∧ ∃ s, (alone awaitNone).system.Reachable s ∧ s.fault = some .assertFailed) := by
  refine ⟨⟨unbound_awaitWindowed, ?_⟩, ⟨rfl, rfl, rfl, fun _ => rfl, fun _ => trivial, fun _ => trivial⟩, ?_⟩
  · rw [awaitWindowed_eq]
    obtain ⟨s, hr, hs⟩ := (alone (awaitEach true)).system.exists_reachable (List.replicate 19 (stepFirst true))
      (p := fun s => s.fault = some .nullExecutor) (by decide)
    exact ⟨s, hr, of_decide_eq_true hs⟩
  · obtain ⟨s, hr, hs⟩ := (alone awaitNone).system.exists_reachable (List.replicate 3 (stepFirst true))
      (p := fun s => s.fault = some .assertFailed) (by decide)
    exact ⟨s, hr, of_decide_eq_true hs⟩

-- Without the yield, both windows are awaited, and the caller gets the result.
theorem executorless_safe_windowed :
    ∃ s : Config Unit Unit Nat Nat Nat, s.delivered = [.value none] ∧ s.Safe (alone (awaitWindowed false)) := by
  suffices ∃ s, ((alone (awaitWindowed false)).system.restrict Guarded).Reachable s ∧ s.delivered = [.value none] by
    obtain ⟨s, hr, hs⟩ := this
    exact ⟨s, hs, ((executorless_safe unbound_awaitWindowed).left s hr.of_restrict).mpr hr⟩
  rw [awaitWindowed_eq]
  obtain ⟨s, hr, hs⟩ := ((alone (awaitEach false)).system.restrict Guarded).exists_reachable
    (List.replicate 36 (stepFirst true)) (p := fun s => s.delivered = [.value none]) (by decide)
  exact ⟨s, hr, of_decide_eq_true hs⟩

end Lazy
end AsyncSimple
