import AsyncSimple.Coro.Theorems.CollectAllWindowed
import AsyncSimple.Coro.Theorems.Progress

-- What a step does to the cells and the tokens, when it is code that holds this step. The invariants of
-- the machine are derived from this.

open Transition

namespace AsyncSimple
namespace Lazy

variable {ε α ξ θ χ : Type}

namespace Cell

-- The awaiter of a vector takes a step of its own, by which it may resume the coroutine.
inductive Moves : Cell ε α ξ θ χ → Cell ε α ξ θ χ → Prop
  | collectAll {children : Fin n → Body ε α ξ k} {setup : CollectAllAwaiter.Setup n Nat ξ}
    {state state' : CollectAllAwaiter.Config n ε (Option α) Nat ξ} (hp : state'.produced = state.produced)
    (hr : state'.resumed = [] → state.resumed = []) :
    Moves (.collectAll reschedule children setup state) (.collectAll reschedule children setup state')
  | collectAny {children : Fin n → Body ε α ξ k} {setup : CollectAnyAwaiter.Setup n Nat ξ}
    {state state' : CollectAnyAwaiter.Config n ε (Option α) Nat ξ} (hp : state'.produced = state.produced)
    (hr : state'.resumed = [] → state.resumed = []) :
    Moves (.collectAny reschedule children setup state) (.collectAny reschedule children setup state')

-- It gets the result of a child.
inductive Completes (j : Nat) (r : Try ε (Option α)) : Cell ε α ξ θ χ → Cell ε α ξ θ χ → Prop
  | collectAll {children : Fin n → Body ε α ξ k} {setup : CollectAllAwaiter.Setup n Nat ξ}
    {state state' : CollectAllAwaiter.Config n ε (Option α) Nat ξ} (hj : j < n)
    (hp : state'.produced = Function.update state.produced ⟨j, hj⟩ (some r)) (hr : state'.resumed = state.resumed) :
    Completes j r (.collectAll reschedule children setup state) (.collectAll reschedule children setup state')
  | collectAny {children : Fin n → Body ε α ξ k} {setup : CollectAnyAwaiter.Setup n Nat ξ}
    {state state' : CollectAnyAwaiter.Config n ε (Option α) Nat ξ} (hj : j < n)
    (hp : state'.produced = Function.update state.produced ⟨j, hj⟩ (some r)) (hr : state'.resumed = state.resumed) :
    Completes j r (.collectAny reschedule children setup state) (.collectAny reschedule children setup state')

-- A child of a vector, with the executor that it is started with.
inductive Child : Cell ε α ξ θ χ → Bool → Nat → Option ξ → Body ε α ξ k → Prop
  | collectAll {children : Fin n → Body ε α ξ k} {setup : CollectAllAwaiter.Setup n Nat ξ}
    {state : CollectAllAwaiter.Config n ε (Option α) Nat ξ} (j : Fin n) :
    Child (.collectAll reschedule children setup state) reschedule j (setup.bound j) (children j)
  | collectAny {children : Fin n → Body ε α ξ k} {setup : CollectAnyAwaiter.Setup n Nat ξ}
    {state : CollectAnyAwaiter.Config n ε (Option α) Nat ξ} (j : Fin n) :
    Child (.collectAny reschedule children setup state) reschedule j (setup.bound j) (children j)

variable {x y : Cell ε α ξ θ χ}

-- The coroutine is resumed once.

theorem Moves.next (h : x.Moves y) (hn : y.next = some a) : x.next = some a := by
  cases h <;> simp only [Cell.next, Option.ite_none_right_eq_some, List.isEmpty_iff] at hn ⊢
  case collectAll hr => exact hn.imp_left hr
  case collectAny hr => exact hn.imp_left hr

theorem Moves.target (h : x.Moves y) : x.target = none := by
  cases h <;> rfl

theorem Moves.child {child : Body ε α ξ k} (h : x.Moves y) (hc : x.Child reschedule j executor child) :
    y.Child reschedule j executor child := by
  cases h
  case collectAll => cases hc; exact .collectAll _
  case collectAny => cases hc; exact .collectAny _

theorem Moves.tells (h : x.Moves y) : y.tells = x.tells := by
  cases h <;> rfl

theorem Completes.tells (h : x.Completes j r y) : y.tells = x.tells := by
  cases h <;> rfl

theorem Completes.next (h : x.Completes j r y) : y.next = x.next := by
  cases h
  case collectAll hr => simp only [Cell.next, hr]
  case collectAny hr => simp only [Cell.next, hr]

end Cell

-- A coroutine is at the beginning of its code, or goes on after something that has not given it anything.
def Stage.body : Stage ε α ξ k → Option (Body ε α ξ k)
  | initial body | suspended body => some body
  | _                             => none

theorem Stage.not_final {stage : Stage ε α ξ k} {b : Body ε α ξ k} (h : stage.body = some b) : stage.isFinal = false := by
  cases stage <;> cases h <;> rfl

-- A coroutine that runs on thread `t` reaches the stage.
def Frame.enter (f : Frame ε α ξ θ k) (t : θ) (stage : Stage ε α ξ k) : Frame ε α ξ θ k :=
  { f with stage, thread := some t }

-- The ways in which a piece of the body of a coroutine comes to its end.

namespace Body

-- It is the last one, and leaves the result in the slot.
inductive Ends : {k : Kind} → Body ε α ξ k → Slot ε α k → Slot ε α k → Prop
  | coReturn     : Ends (.coReturn v) result (.value (.kValue v))
  | coReturnVoid : Ends .coReturnVoid result result
  | throw        : Ends (.throw x) result (result.unhandledException x)

-- The coroutine goes on at once.
inductive Goes (m : Setup ε α ξ θ χ) (t : θ) (executor_ : Option ξ) : Body ε α ξ k → Body ε α ξ k → Prop
  | currentExecutor : Goes m t executor_ (.currentExecutor g) (g executor_)
  | schedule (h : (m.executor e).currentThreadInExecutor t) : Goes m t executor_ (.schedule e body) body
  | awaitExternal (r : Try ε (Option α)) : Goes m t executor_ (.awaitExternal type g) (g r)
  | collectAll {executors : Fin 0 → Option ξ} {children : Fin 0 → Body ε α ξ k'} :
    Goes m t executor_ (.collectAll 0 para reschedule executors children g) (g [])

-- It is handed over to an executor.
inductive Leaves (executor_ : Option ξ) : Body ε α ξ k → ξ → Body ε α ξ k → Prop
  | yield (h : executor_ = some e) : Leaves executor_ (.yield body) e body
  | schedule      : Leaves executor_ (.schedule e body) e body
  | scheduleAfter : Leaves executor_ (.scheduleAfter e body) e body

-- It waits for something that is created: these cells, which come after `length` others. The code at the
-- place is run then.
inductive Awaits (m : Setup ε α ξ θ χ) (t : θ) (c : Nat) (f : Frame ε α ξ θ k) (length : Nat) :
    Body ε α ξ k → List (Cell ε α ξ θ χ) → Stage ε α ξ k → Place ξ θ χ → Node → Prop
  | await {child : Body ε α ξ k'} :
    Awaits m t c f length (.await child g) [.lazy (.new child f.executor_ (some c) (some t))] (.awaiting length g)
      (.running t) (.coro length)
  | awaitVia {child : Body ε α ξ k'} :
    Awaits m t c f length (.awaitVia (some e) child g)
      [m.via f.executor_ t c, .lazy (.new child (some e) (some length) none)] (.awaiting (length + 1) g) (.queued e none)
      (.coro (length + 1))
  | awaitExternal :
    Awaits m t c f length (.awaitExternal type g) [m.via f.executor_ t c] (.external g) .external (.coro length)
  | collectAll {children : Fin n → Body ε α ξ k'} {setup : CollectAllAwaiter.Setup n Nat ξ}
    (h : setup = ⟨para, f.executor_, executors, c⟩) :
    Awaits m t c f length (.collectAll n para false executors children g) [.collectAll false children setup setup.init]
      (.collectAll length g) (.running t) (.starter length)
  | collectAllVia {children : Fin n → Body ε α ξ k'} {setup : CollectAllAwaiter.Setup n Nat ξ}
    (h : setup = ⟨para, f.executor_, executors, length⟩) :
    Awaits m t c f length (.collectAll n para true executors children g)
      [m.via f.executor_ t c, .collectAll true children setup setup.init] (.collectAll (length + 1) g) (.running t)
      (.starter (length + 1))
  | collectAny {children : Fin n → Body ε α ξ kind} {setup : CollectAnyAwaiter.Setup n Nat ξ}
    (h : setup = ⟨kind = .void, f.executor_, executors, c⟩) :
    Awaits m t c f length (.collectAny n kind false executors children g) [.collectAny false children setup setup.init]
      (.collectAny length g) (.running t) (.starter length)
  | collectAnyVia {children : Fin n → Body ε α ξ kind} {setup : CollectAnyAwaiter.Setup n Nat ξ}
    (h : setup = ⟨kind = .void, f.executor_, executors, length⟩) :
    Awaits m t c f length (.collectAny n kind true executors children g)
      [m.via f.executor_ t c, .collectAny true children setup setup.init] (.collectAny (length + 1) g) (.running t)
      (.starter (length + 1))

-- It uses an executor that is null, or awaits the first child of an empty vector.
def fails (executor_ : Option ξ) : Body ε α ξ k → Bool
  | yield _                => executor_.isNone
  | awaitVia executor _ _  => executor.isNone
  | collectAny n _ _ _ _ _ => n = 0
  | _                      => false

end Body

namespace Config

-- New cells come after the others.
def append (s : Config ε α ξ θ χ) (cells : List (Cell ε α ξ θ χ)) : Config ε α ξ θ χ :=
  { s with cells := s.cells ++ cells }

-- Code is put at this place, unless the executor refuses it.
def hand (s : Config ε α ξ θ χ) (p : Place ξ θ χ) (a : Node) (accept : Bool) : Config ε α ξ θ χ :=
  match p with
  | .queued executor context => s.submit executor context a accept
  | p                        => s.put p a

-- A coroutine that fails, or that `Start` hands over to an executor that is null.

def failsCell (s : Config ε α ξ θ χ) : Cell ε α ξ θ χ → Bool
  | .lazy f =>
    match f.stage with
    | .running body => body.fails f.executor_
    | _             => false
  | .launch true child _ false =>
    match s.cells[child]? with
    | some (.lazy f) => f.executor_.isNone
    | _              => false
  | _ => false

def fails (s : Config ε α ξ θ χ) : Node → Bool
  | .coro c => s.cells[c]?.any s.failsCell
  | _       => false

end Config

-- A coroutine runs up to its next suspension point.
inductive ExecStep (m : Setup ε α ξ θ χ) (s : Config ε α ξ θ χ) (t : θ) (c : Nat) (env : Env ε α) (f : Frame ε α ξ θ k)
    (body : Body ε α ξ k) : Config ε α ξ θ χ → Prop
  | finish (hb : body.Ends f.result result) (hq : f.continuation_ = some q) :
    ExecStep m s t c env f body ((s.enter t c { f with result } .final).put (.running t) (.coro q))
  | proceed (hb : body.Goes m t f.executor_ body') : ExecStep m s t c env f body (s.proceed t c f body')
  | leave (hb : body.Leaves f.executor_ e body') :
    ExecStep m s t c env f body ((s.enter t c f (.suspended body')).submit e none (.coro c) env.accept)
  | await (hb : body.Awaits m t c f s.cells.length cells stage p a) :
    ExecStep m s t c env f body (((s.append cells).enter t c f stage).hand p a env.accept)

-- A coroutine is started or goes on. What it has waited for is there.
inductive LazyStep (m : Setup ε α ξ θ χ) (s : Config ε α ξ θ χ) (t : θ) (c : Nat) (env : Env ε α) (f : Frame ε α ξ θ k) :
    Config ε α ξ θ χ → Prop
  | begin (hp : f.stage.body = some body) : LazyStep m s t c env f (s.proceed t c f body)
  | exec (hp : f.stage = .running body) (hs : ExecStep m s t c env f body s') : LazyStep m s t c env f s'
  | external (hp : f.stage = .external g) : LazyStep m s t c env f (s.proceed t c f (g env.result))
  | await {f' : Frame ε α ξ θ k'} (hp : f.stage = .awaiting child g) (hch : s.cells[child]? = some (.lazy f'))
    (hf : f'.stage.isFinal) (hr : f'.result.tryResult = some r) (hne : c ≠ child) :
    LazyStep m s t c env f ((s.proceed t c f (g r)).destroy child)
  | collectAll {children : Fin n → Body ε α ξ k'} {setup : CollectAllAwaiter.Setup n Nat ξ}
    {state : CollectAllAwaiter.Config n ε (Option α) Nat ξ} (hp : f.stage = .collectAll q g)
    (hq : s.cells[q]? = some (.collectAll reschedule children setup state)) (hr : ∀ i, state.produced i = some (v i)) :
    LazyStep m s t c env f (s.proceed t c f (g (List.ofFn v)))
  | collectAny {children : Fin n → Body ε α ξ k'} {setup : CollectAnyAwaiter.Setup n Nat ξ}
    {state : CollectAnyAwaiter.Config n ε (Option α) Nat ξ} {i : Fin n} (hp : f.stage = .collectAny q g)
    (hq : s.cells[q]? = some (.collectAny reschedule children setup state)) (hr : state.produced i = some r)
    (hm : (Cell.collectAny reschedule children setup state).Moves y) (hne : q ≠ c) :
    LazyStep m s t c env f ((s.set q y).proceed t c f (g ⟨some i, r⟩))

-- The coroutine that `Start` has launched, which awaits its child, and then calls its callback.
inductive LaunchStep (s : Config ε α ξ θ χ) (t : θ) (l : Nat) (env : Env ε α) (child : Nat) :
    Bool → Callback → Bool → Config ε α ξ θ χ → Prop
  | schedule {f : Frame ε α ξ θ k} (hch : s.cells[child]? = some (.lazy f)) (hf : f.continuation_ = none)
    (he : f.executor_ = some e) (hne : l ≠ child) :
    LaunchStep s t l env child true callback false
      (((s.set l (.launch true child callback true)).set child (.lazy { f with continuation_ := some l })).submit e none
        (.coro child) env.accept)
  | start {f : Frame ε α ξ θ k} (hch : s.cells[child]? = some (.lazy f)) (hf : f.continuation_ = none) (hne : l ≠ child) :
    LaunchStep s t l env child false callback false
      (((s.set l (.launch false child callback true)).set child
        (.lazy { f with continuation_ := some l, thread := some t })).put (.running t) (.coro child))
  | deliver {f : Frame ε α ξ θ k} (hch : s.cells[child]? = some (.lazy f)) (hf : f.stage.isFinal)
    (hr : f.result.tryResult = some r) (hne : l ≠ child) :
    LaunchStep s t l env child reschedule .caller true
      (({ s with delivered := s.delivered ++ [r] }.destroy l).destroy child)
  | complete {f : Frame ε α ξ θ k} (hch : s.cells[child]? = some (.lazy f)) (hf : f.stage.isFinal)
    (hr : f.result.tryResult = some r) (hne : l ≠ child) (hq : s.cells[q]? = some x) (hx : x.Completes j r y)
    (hql : q ≠ l) (hqc : q ≠ child) :
    LaunchStep s t l env child reschedule (.child q j) true
      ((((s.set q y).put (.running t) (.child q j)).destroy l).destroy child)

-- The code of the awaiter of a vector: a child is handed over to the executor, or started, the coroutine
-- is resumed, or the code goes on or ends.
inductive VectorStep (s : Config ε α ξ θ χ) (t : θ) (env : Env ε α) : Node → Config ε α ξ θ χ → Prop
  | schedule {children : Fin n → Body ε α ξ k} {setup : CollectAllAwaiter.Setup n Nat ξ}
    {state : CollectAllAwaiter.Config n ε (Option α) Nat ξ}
    (hq : s.cells[q]? = some (.collectAll reschedule children setup state))
    (hm : (Cell.collectAll reschedule children setup state).Moves y) (hp : setup.para) (he : setup.executor = some e)
    (j : Fin n) :
    VectorStep s t env (.starter q)
      (((s.set q y).put (.running t) (.starter q)).submit e none (.child q j) env.accept)
  | start {child : Body ε α ξ k} (hq : s.cells[q]? = some x) (hm : x.Moves y) (hc : x.Child reschedule j executor child) :
    VectorStep s t env (.starter q)
      (((s.set q y).put (.running t) (.starter q)).start t reschedule child executor (.child q j))
  | task {child : Body ε α ξ k} (hq : s.cells[q]? = some x) (hm : x.Moves y) (hc : x.Child reschedule j executor child) :
    VectorStep s t env (.child q j) ((s.set q y).start t reschedule child executor (.child q j))
  | resume (hq : s.cells[a.id]? = some x) (hm : x.Moves y) (hn : x.next = some n) :
    VectorStep s t env a ((s.set a.id y).put (.running t) n)
  | stay (hq : s.cells[a.id]? = some x) (hm : x.Moves y) : VectorStep s t env a ((s.set a.id y).put (.running t) a)
  | leave (hq : s.cells[a.id]? = some x) (hm : x.Moves y) : VectorStep s t env a (s.set a.id y)

inductive NodeStep (m : Setup ε α ξ θ χ) (s : Config ε α ξ θ χ) (t : θ) (env : Env ε α) :
    Node → Config ε α ξ θ χ → Prop
  | lazy {f : Frame ε α ξ θ k} (hc : s.cells[c]? = some (.lazy f)) (hs : LazyStep m s t c env f s') :
    NodeStep m s t env (.coro c) s'
  | resume (hc : s.cells[c]? = some (.via context continuation false))
    (hp : ∀ x ∈ context, (m.executor x.1).prompt t x.2) :
    NodeStep m s t env (.coro c) ((s.set c (.via context continuation true)).put (.running t) (.coro continuation))
  | checkin (hc : s.cells[c]? = some (.via (some (executor, context)) continuation false)) :
    NodeStep m s t env (.coro c)
      ((s.set c (.via (some (executor, context)) continuation true)).submit executor (some context) (.coro continuation)
        env.accept)
  | launch (hc : s.cells[c]? = some (.launch reschedule child callback awaiting))
    (hs : LaunchStep s t c env child reschedule callback awaiting s') : NodeStep m s t env (.coro c) s'
  | vector (hs : VectorStep s t env a s') : NodeStep m s t env a s'

variable {m : Setup ε α ξ θ χ} {s s₁ s₂ : Config ε α ξ θ χ} {env : Env ε α}

theorem fault_submit : (s.submit executor context a accept).fault = s.fault := by
  cases accept <;> rfl

theorem fault_schedule (hf : s.fault = none) : (s.schedule executor a accept).fault.isSome = executor.isNone := by
  cases executor
  case none => rfl
  case some => simp [Config.schedule, fault_submit, hf]

theorem exists_executor (hf : (s.schedule executor a accept).fault = none) :
    ∃ e, executor = some e ∧ s.schedule executor a accept = s.submit e none a accept := by
  cases executor
  case none => contradiction
  case some => exact ⟨_, rfl, rfl⟩

theorem finalSuspend_eq {f : Frame ε α ξ θ k} (h : f.continuation_ = some q) :
    s.finalSuspend t c f result = (s.enter t c { f with result } .final).put (.running t) (.coro q) := by
  rw [Config.finalSuspend]
  split
  case h_1 hn => cases h.symm.trans hn
  case h_2 hq => cases h.symm.trans hq; rfl

theorem cell_append {l : List (Cell ε α ξ θ χ)} {c : Nat} (h : s.cells[c]? = some x) : (s.append l).cells[c]? = some x :=
  (List.getElem?_append_left (List.getElem?_eq_some_iff.mp h).1).trans h

theorem cell_set_self (h : s.cells[c]? = some x) : (s.set c y).cells[c]? = some y := by
  rw [cell_set h, if_pos rfl]

theorem add_add (s : Config ε α ξ θ χ) (x y : Cell ε α ξ θ χ) : (s.add x).add y = s.append [x, y] := by
  simp [Config.add, Config.append]

theorem length_add (s : Config ε α ξ θ χ) (x : Cell ε α ξ θ χ) : (s.add x).cells.length = s.cells.length + 1 := by
  simp [Config.add]

-- It fails if and only if it uses something that is not there.
theorem exec_cases {f : Frame ε α ξ θ k} (hf : s₁.fault = none) (ha : f.alive) (hs : m.exec s₁ t c env f body = some s₂) :
    s₂.fault.isSome = body.fails f.executor_ ∧ (s₂.fault = none → ExecStep m s₁ t c env f body s₂) := by
  have hn : s₁.fault.isSome = false := by rw [hf]; rfl
  have hfin {result : Slot ε α k} (hb : body.Ends f.result result) : (s₁.finalSuspend t c f result).fault.isSome = false ∧
      ExecStep m s₁ t c env f body (s₁.finalSuspend t c f result) := by
    obtain ⟨q, hq⟩ := Option.isSome_iff_exists.mp (Bool.and_eq_true_iff.mp ha).left
    rw [finalSuspend_eq hq]
    exact ⟨hn, .finish hb hq⟩
  cases body <;> simp only [Setup.exec, Body.fails] at hs ⊢
  case coReturn        => cases hs; exact (hfin .coReturn).imp_right fun h _ => h
  case coReturnVoid    => cases hs; exact (hfin .coReturnVoid).imp_right fun h _ => h
  case throw           => cases hs; exact (hfin .throw).imp_right fun h _ => h
  case currentExecutor => cases hs; exact ⟨hn, fun _ => .proceed .currentExecutor⟩
  case yield           =>
    cases hs
    refine ⟨fault_schedule hf, fun h => ?_⟩
    obtain ⟨e, he, h⟩ := exists_executor h
    exact h ▸ .leave (.yield he)
  case schedule        =>
    split at hs <;> cases hs
    case isTrue h => exact ⟨hn, fun _ => .proceed (.schedule h)⟩
    case isFalse  => exact ⟨(congrArg Option.isSome fault_submit).trans hn, fun _ => .leave .schedule⟩
  case scheduleAfter   => cases hs; exact ⟨(congrArg Option.isSome fault_submit).trans hn, fun _ => .leave .scheduleAfter⟩
  case await           => cases hs; exact ⟨hn, fun _ => .await .await⟩
  case awaitVia executor child g =>
    cases hs
    refine ⟨fault_schedule hf, fun h => ?_⟩
    obtain ⟨e, rfl, h⟩ := exists_executor h
    rw [h, add_add]
    exact .await .awaitVia
  case awaitExternal   =>
    split at hs
    case h_1 => cases hs; exact ⟨hn, fun _ => .proceed (.awaitExternal _)⟩
    case h_2 => cases hs; exact ⟨hn, fun _ => .await .awaitExternal⟩
    case h_3 => split at hs <;> cases hs; exact ⟨hn, fun _ => .proceed (.awaitExternal _)⟩
    case h_4 => cases hs; exact ⟨hn, fun _ => .proceed (.awaitExternal _)⟩
  case collectAll n para reschedule executors children g =>
    split at hs <;> cases hs
    case isTrue h =>
      subst h
      exact ⟨hn, fun _ => .proceed .collectAll⟩
    case isFalse  =>
      cases reschedule
      case false => exact ⟨hn, fun _ => .await (.collectAll rfl)⟩
      case true  =>
        refine ⟨hn, fun _ => ?_⟩
        simp only [Setup.wrap, if_true, add_add, length_add]
        exact .await (.collectAllVia rfl)
  case collectAny n kind reschedule executors children g =>
    split at hs <;> cases hs
    case isTrue h  => exact ⟨(decide_eq_true h).symm, fun h => by contradiction⟩
    case isFalse h =>
      rw [decide_eq_false h]
      cases reschedule
      case false => exact ⟨hn, fun _ => .await (.collectAny rfl)⟩
      case true  =>
        refine ⟨hn, fun _ => ?_⟩
        simp only [Setup.wrap, if_true, add_add, length_add]
        exact .await (.collectAnyVia rfl)

namespace Wired

-- The result of the child of a coroutine that is resumed.
theorem exists_final (w : Wired s) (h : Holding s [.coro c]) (hf : s.fault = none) (ha : s.Awaits c child) :
    ∃ (k : Kind) (f : Frame ε α ξ θ k) (r : _),
      s.cells[child]? = some (.lazy f) ∧ f.stage.isFinal ∧ f.result.tryResult = some r ∧ s.result child = some (some r) := by
  obtain ⟨r, hr⟩ := w.exists_result h hf ha
  have hres := hr
  simp only [Config.result] at hr
  split at hr <;> try contradiction
  case h_1 f hc => exact ⟨_, f, r, hc, h.isFinal hf ha hc, Option.some.inj hr, hres⟩

theorem stepLazy_cases {f : Frame ε α ξ θ k} (w : Wired s₁) (h : Holding s₁ [.coro c]) (hf : s₁.fault = none)
    (hc : s₁.cells[c]? = some (.lazy f)) (hs : m.stepLazy s₁ t c env f = some s₂) :
    s₂.fault.isSome = s₁.failsCell (.lazy f) ∧ (s₂.fault = none → LazyStep m s₁ t c env f s₂) := by
  have hn : s₁.fault.isSome = false := by rw [hf]; rfl
  have hown := (w.own c _ hc).right
  cases hp : f.stage <;> simp only [Setup.stepLazy, Config.failsCell, hp] at hs hown ⊢
  case initial   => cases hs; exact ⟨hn, fun _ => .begin (by rw [hp]; rfl)⟩
  case running   => exact (exec_cases hf (h.alive hf hc) hs).imp_right fun he hf => .exec hp (he hf)
  case suspended => cases hs; exact ⟨hn, fun _ => .begin (by rw [hp]; rfl)⟩
  case external  => cases hs; exact ⟨hn, fun _ => .external hp⟩
  case final     => contradiction
  case awaiting child g =>
    obtain ⟨_, f', r, hch, hfin, hr, hres⟩ := w.exists_final h hf ((h.linked c _ hc).2.2 child (by rw [hp]; rfl))
    rw [hres] at hs
    cases hs
    refine ⟨hn, fun _ => .await hp hch hfin hr ?_⟩
    rintro rfl
    cases hc.symm.trans hch
    simp [hp, Stage.isFinal] at hfin
  case collectAll q g =>
    obtain ⟨x, p, hq, hx, hwait, ht⟩ := hown q rfl
    split at hs <;> cases hs
    case h_1 state hq' =>
    cases hq.symm.trans hq'
    cases hwait
    have hr : state.resumed ≠ [] := fun hn => h.next_ne_via hf hq ht (by simp [Cell.next, hn])
    obtain ⟨v, ho, hv⟩ := (h.invAll hq).output_eq hr
    rw [ho]
    exact ⟨hn, fun _ => .collectAll hp hq hv⟩
  case collectAny q g =>
    split at hs <;> try contradiction
    case h_1 hq =>
    obtain ⟨state', hw⟩ := exists_received h hf hq (hown q rfl)
    simp only [hw] at hs
    obtain ⟨r, hr, rfl⟩ := Option.map_eq_some_iff.mp hs
    obtain ⟨i, v, _, hv, rfl⟩ := ((h.invAny hq).step_awaitResume hw).received hr
    have hprod := CollectAnyAwaiter.awaitResume_produced hw
    obtain ⟨_, _, hres, _⟩ := CollectAnyAwaiter.Inv.awaitResume_eq hw
    refine ⟨hn, fun _ => .collectAny hp hq (hprod ▸ hv) (.collectAny hprod (hres ▸ id)) ?_⟩
    rintro rfl
    simp [hq] at hc

theorem stepLaunch_cases (w : Wired s₁) (h : Holding s₁ [.coro c]) (hf : s₁.fault = none)
    (hc : s₁.cells[c]? = some (.launch reschedule child callback awaiting))
    (hs : Setup.stepLaunch s₁ t c env reschedule child callback awaiting = some s₂) :
    s₂.fault.isSome = s₁.failsCell (.launch reschedule child callback awaiting) ∧
      (s₂.fault = none → LaunchStep s₁ t c env child reschedule callback awaiting s₂) := by
  have hn : s₁.fault.isSome = false := by rw [hf]; rfl
  have hl := (h.linked c _ hc).2.2.1
  have hne {k : Kind} {f : Frame ε α ξ θ k} (hch : s₁.cells[child]? = some (.lazy f)) : c ≠ child := by
    rintro rfl
    simp [hc] at hch
  cases awaiting <;> simp only [Setup.stepLaunch, Bool.false_eq_true, if_false, if_true] at hs hl
  case false =>
    split at hs <;> try contradiction
    case h_1 f hch =>
    have hcont : f.continuation_ = none := by simpa [Config.cont, hch, Cell.cont] using hl
    split at hs <;> cases hs
    case isTrue hr  =>
      subst hr
      simp only [Config.failsCell, hch]
      refine ⟨fault_schedule hf, fun h => ?_⟩
      obtain ⟨e, he, h⟩ := exists_executor h
      rw [h]
      exact .schedule hch hcont he (hne hch)
    case isFalse hr =>
      rw [Bool.not_eq_true] at hr
      subst hr
      exact ⟨hn, fun _ => .start hch hcont (hne hch)⟩
  case true =>
    obtain ⟨_, f, r, hch, hfin, hr, hres⟩ := w.exists_final h hf (h.awaits_child hc rfl).left
    rw [hres] at hs
    obtain ⟨s, hcb, rfl⟩ := Option.map_eq_some_iff.mp hs
    have hx : s₁.failsCell (.launch reschedule child callback true) = false := by cases reschedule <;> rfl
    rw [hx]
    cases callback <;> simp only [Setup.callback] at hcb
    case caller    => cases hcb; exact ⟨hn, fun _ => .deliver hch hfin hr (hne hch)⟩
    case child q j =>
      split at hcb <;> try contradiction
      case h_1 hq =>
        split at hcb <;> try contradiction
        case isTrue hj =>
        obtain ⟨state', hw, rfl⟩ := Option.map_eq_some_iff.mp hcb
        obtain ⟨_, _, hp, _⟩ := CollectAllAwaiter.complete_some hw
        obtain ⟨_, _, _, _, hr'⟩ := CollectAllAwaiter.Inv.complete_eq hw
        exact ⟨hn, fun _ => .complete hch hfin hr (hne hch) hq (.collectAll hj hp hr')
          (by rintro rfl; simp [hq] at hc) (by rintro rfl; simp [hq] at hch)⟩
      case h_2 hq =>
        split at hcb <;> try contradiction
        case isTrue hj =>
        obtain ⟨state', hw, rfl⟩ := Option.map_eq_some_iff.mp hcb
        obtain ⟨_, _, _, _, hr'⟩ := CollectAnyAwaiter.Inv.complete_eq hw
        exact ⟨hn, fun _ => .complete hch hfin hr (hne hch) hq (.collectAny hj (CollectAnyAwaiter.complete_produced hw) hr')
          (by rintro rfl; simp [hq] at hc) (by rintro rfl; simp [hq] at hch)⟩

end Wired

namespace Holding

theorem stepStarter_cases (h : Holding s₁ [.starter q]) (hs : Setup.stepStarter s₁ t q env = some s₂) :
    VectorStep s₁ t env (.starter q) s₂ := by
  simp only [Setup.stepStarter] at hs
  split at hs <;> try contradiction
  case h_1 state hq =>
    obtain ⟨state', hw, rfl⟩ := Option.map_eq_some_iff.mp hs
    have hp := (CollectAllAwaiter.stepStarter_same (h.invAll hq) hw).left.produced
    have b := CollectAllAwaiter.Bound.reachable (h.linked q _ hq).right
    cases (h.invAll hq).stepStarter_cases hw
    case launch j pc h₁ h₂ h₃ h₄ h₅ h₆ h₇ =>
      obtain rfl | rfl := h₄ <;> simp only [h₁, h₅, Function.update_self]
      case inl =>
        have hx := CollectAllAwaiter.Inv.queued_eq h₁ hw (by rw [h₅, Function.update_self])
        obtain ⟨e, he⟩ := Option.isSome_iff_exists.mp hx.right
        rw [he]
        exact .schedule hq (.collectAll hp h₇.symm.trans) hx.left he j
      case inr =>
        rw [h₆, b.launch j h₁]
        exact .start hq (.collectAll hp h₇.symm.trans) (.collectAll j)
    case resume h₁ h₂ h₃ h₄ h₅ h₆ =>
      simp only [h₁]
      exact .resume (a := .starter q) hq (.collectAll hp fun _ => h₃) (by simp [Cell.next, h₃])
    case other h₁ h₂ h₃ h₄ h₅ h₆ =>
      split
      case h_1 hl => exact absurd hl (h₁ _)
      case h_2 hl => exact absurd hl (h₂ _)
      case h_3    => exact .leave (a := .starter q) hq (.collectAll hp h₅.symm.trans)
      case h_4    => exact .stay (a := .starter q) hq (.collectAll hp h₅.symm.trans)
  case h_2 state hq =>
    obtain ⟨state', hw, rfl⟩ := Option.map_eq_some_iff.mp hs
    have hp := CollectAnyAwaiter.stepStarter_produced hw
    have b := CollectAnyAwaiter.Bound.reachable (h.linked q _ hq).right.right
    cases (h.invAny hq).stepStarter_cases hw
    case start j h₁ h₂ h₃ h₄ h₅ h₆ =>
      simp only [h₁]
      rw [h₅, b.start j h₁]
      exact .start hq (.collectAny hp h₆.symm.trans) (.collectAny j)
    case other h₁ h₂ h₃ h₄ h₅ =>
      split
      case h_1 hl => exact absurd hl (h₁ _)
      case h_2    => exact .leave (a := .starter q) hq (.collectAny hp h₄.symm.trans)
      case h_3    => exact .stay (a := .starter q) hq (.collectAny hp h₄.symm.trans)

theorem stepChild_cases (h : Holding s₁ [.child q j]) (hs : Setup.stepChild s₁ t q j = some s₂) :
    VectorStep s₁ t env (.child q j) s₂ := by
  simp only [Setup.stepChild] at hs
  split at hs <;> try contradiction
  case h_1 hq =>
    split at hs <;> try contradiction
    case isTrue hj =>
    split at hs
    case h_1 hp =>
      obtain ⟨state', hw, rfl⟩ := Option.map_eq_some_iff.mp hs
      have b := CollectAllAwaiter.Bound.reachable (h.linked q _ hq).right
      obtain ⟨_, _, _, h₄, h₅⟩ := CollectAllAwaiter.Inv.runTask_eq hw
      rw [h₄, b.child _ (by simp [hp])]
      exact .task hq (.collectAll (CollectAllAwaiter.runTask_same hw).left.produced h₅.symm.trans) (.collectAll ⟨j, hj⟩)
    case h_2 =>
      obtain ⟨state', hw, rfl⟩ := Option.map_eq_some_iff.mp hs
      have hp := (CollectAllAwaiter.stepChild_same hw).left.produced
      cases ((h.invAll hq).stepChild_cases hw).left
      case resume h₂ h₃ h₄ h₅ =>
        simp only [h₂]
        exact .resume (a := .child q j) hq (.collectAll hp fun _ => h₄) (by simp [Cell.next, h₄])
      case other pc h₂ h₃ h₄ h₅ h₆ =>
        split
        case h_1 hl => exact absurd hl (h₄ _)
        case h_2    => exact .leave (a := .child q j) hq (.collectAll hp h₆.symm.trans)
        case h_3    => exact .stay (a := .child q j) hq (.collectAll hp h₆.symm.trans)
  case h_2 hq =>
    split at hs <;> try contradiction
    case isTrue hj =>
    obtain ⟨state', hw, rfl⟩ := Option.map_eq_some_iff.mp hs
    have hp := CollectAnyAwaiter.stepChild_produced hw
    cases ((h.invAny hq).stepChild_cases hw).left
    case resume h₂ h₃ h₄ h₅ =>
      simp only [h₂]
      exact .resume (a := .child q j) hq (.collectAny hp fun _ => h₄) (by simp [Cell.next, h₄])
    case other pc h₂ h₃ h₄ h₅ h₆ h₇ h₈ =>
      split
      case h_1 hl => exact absurd hl h₄
      case h_2    => exact .leave (a := .child q j) hq (.collectAny hp h₈.symm.trans)
      case h_3    => exact .stay (a := .child q j) hq (.collectAny hp h₈.symm.trans)

end Holding

-- The code of an awaiter does not fail.
theorem VectorStep.fault (hs : VectorStep s₁ t env a s₂) : s₂.fault = s₁.fault := by
  cases hs
  case schedule => exact fault_submit
  all_goals rfl

theorem Wired.stepNode_cases (w : Wired s₁) (h : Holding s₁ [a]) (hf : s₁.fault = none) (hs : m.stepNode s₁ t env a = some s₂) :
    s₂.fault.isSome = s₁.fails a ∧ (s₂.fault = none → NodeStep m s₁ t env a s₂) := by
  have hn : s₁.fault.isSome = false := by rw [hf]; rfl
  have hvec (hs : VectorStep s₁ t env a s₂) : s₂.fault.isSome = false ∧ (s₂.fault = none → NodeStep m s₁ t env a s₂) :=
    ⟨hs.fault ▸ hn, fun _ => .vector hs⟩
  cases a <;> simp only [Setup.stepNode] at hs
  case starter => exact hvec (h.stepStarter_cases hs)
  case child   => exact hvec (h.stepChild_cases hs)
  case coro c  =>
    simp only [Setup.stepCoro] at hs
    split at hs <;> try contradiction
    case h_1 hc =>
      simp only [Config.fails, hc, Option.any_some]
      exact (w.stepLazy_cases h hf hc hs).imp_right fun hl hf => .lazy hc (hl hf)
    case h_3 hc =>
      simp only [Config.fails, hc, Option.any_some]
      exact (w.stepLaunch_cases h hf hc hs).imp_right fun hl hf => .launch hc (hl hf)
    case h_2 context continuation resumed hc =>
      simp only [Config.fails, hc, Option.any_some, Config.failsCell]
      split at hs <;> cases hs
      case isFalse hr =>
      rw [Bool.not_eq_true] at hr
      subst hr
      simp only [Setup.stepVia]
      split
      case h_1 => exact ⟨hn, fun _ => .resume hc fun _ hx => by contradiction⟩
      case h_2 =>
        split
        case isTrue hp => exact ⟨hn, fun _ => .resume hc fun _ hx => Option.some.inj hx ▸ hp⟩
        case isFalse   => exact ⟨(congrArg Option.isSome fault_submit).trans hn, fun _ => .checkin hc⟩

-- It does not matter that the code which takes the step is taken out of its token before.
theorem Wired.step_cases (w : Wired s₁) (i : Inv s₁) (hf : s₁.fault = none) (ht : s₁.tokens[j]? = some ⟨.running t, a⟩)
    (hs : m.stepNode (s₁.take j) t env a = some s₂) :
    s₂.fault.isSome = s₁.fails a ∧ (s₂.fault = none → NodeStep m (s₁.take j) t env a s₂) := by
  have wt : Wired (s₁.take j) := w.congr rfl
  exact wt.stepNode_cases (i.holding.take ht) hf hs

theorem fault_eq_none (hn : ∀ s a, m.system.Reachable s → s.fails a = false) (h : m.system.Reachable s) : s.fault = none := by
  induction h
  case init           => rfl
  case step s₁ _ _ h hs _ =>
    replace hs := Setup.step_cases hs
    obtain ⟨hf, hs⟩ := hs
    cases hs
    case run             => exact hf
    case step hf₂        => exact hf₂
    case fail ht hs hf₂  =>
      have := ((Wired.reachable h).step_cases (.reachable h) hf ht hs).left
      rw [hf₂, hn s₁ _ h] at this
      contradiction

-- The caller gets one result, however the coroutines go on.

namespace Config.Once

theorem take (o : s.Once) : (s.take i).Once :=
  o

theorem submit (o : s.Once) : (s.submit executor context a accept).Once := by
  cases accept <;> exact o

theorem hand (o : s.Once) : (s.hand p a accept).Once := by
  cases p
  case queued => exact o.submit
  all_goals exact o

theorem append {l : List (Cell ε α ξ θ χ)} (o : s.Once) (h : l.countP Cell.tells = 0) : (s.append l).Once := by
  simpa [Config.Once, Config.append, List.countP_append, h] using o

theorem exec {f : Frame ε α ξ θ k} (o : s₁.Once) (hc : s₁.cells[c]? = some (.lazy f))
    (hs : ExecStep m s₁ t c env f body s₂) : s₂.Once := by
  cases hs
  case finish  => exact o.set hc rfl
  case proceed => exact o.set hc rfl
  case leave   => exact submit (s := s₁.enter t c f _) (o.set hc rfl)
  case await l stage p a hb =>
    have ho : (s₁.append l).Once := o.append (by cases hb <;> rfl)
    exact hand (s := (s₁.append l).enter t c f _) (ho.set (cell_append hc) rfl)

theorem stepLazy {f : Frame ε α ξ θ k} (o : s₁.Once) (hc : s₁.cells[c]? = some (.lazy f))
    (hs : LazyStep m s₁ t c env f s₂) : s₂.Once := by
  cases hs
  case begin      => exact o.set hc rfl
  case exec hs    => exact o.exec hc hs
  case external   => exact o.set hc rfl
  case collectAll => exact o.set hc rfl
  case await child g r _ _ hch _ _ hne =>
    have ho : (s₁.proceed t c f (g r)).Once := o.set hc rfl
    exact ho.set (Holding.getElem?_set hne hch) rfl
  case collectAny hq _ hm hne =>
    exact (o.set hq hm.tells).set (Holding.getElem?_set hne hc) rfl

theorem stepLaunch (o : s₁.Once) (hl : s₁.cells[l]? = some (.launch reschedule child callback awaiting))
    (hs : LaunchStep s₁ t l env child reschedule callback awaiting s₂) : s₂.Once := by
  cases hs
  case schedule hch _ _ hne => exact submit ((o.set hl (by cases callback <;> rfl)).set (Holding.getElem?_set hne hch) rfl)
  case start hch _ hne      => exact (o.set hl (by cases callback <;> rfl)).set (Holding.getElem?_set hne hch) rfl
  case deliver hch _ _ hne  => exact (o.deliver hl).set (Holding.getElem?_set hne hch) rfl
  case complete hch _ _ hne hq hm hql hqc =>
    have ho := (o.set hq hm.tells).set (y := .destroyed) (Holding.getElem?_set hql hl) rfl
    exact ho.set (Holding.getElem?_set hne (Holding.getElem?_set hqc hch)) rfl

theorem stepVector (o : s₁.Once) (hs : VectorStep s₁ t env a s₂) : s₂.Once := by
  cases hs
  case schedule hq hm _ _ _ => exact submit (o.set hq hm.tells)
  case start hq hm _        => exact ((o.set hq hm.tells).add rfl).add rfl
  case task hq hm _         => exact ((o.set hq hm.tells).add rfl).add rfl
  case resume hm _ hq       => exact o.set hq hm.tells
  case stay hm hq           => exact o.set hq hm.tells
  case leave hm hq          => exact o.set hq hm.tells

theorem stepNode (o : s₁.Once) (hs : NodeStep m s₁ t env a s₂) : s₂.Once := by
  cases hs
  case lazy hc hs   => exact o.stepLazy hc hs
  case launch hc hs => exact o.stepLaunch hc hs
  case vector hs    => exact o.stepVector hs
  case resume hc _  => exact o.set hc rfl
  case checkin hc   => exact submit (o.set hc rfl)

theorem reachable (h : m.system.Reachable s) : s.Once := by
  induction h
  case init         => simp [Config.Once, Setup.system, Setup.init, Cell.tells, List.countP_cons]
  case step h hs ih =>
    obtain ⟨hf, hs⟩ := Setup.step_cases hs
    cases hs
    case run            => exact ih
    case fail           => exact ih
    case step ht hs hf₂ => exact ih.take.stepNode (((Wired.reachable h).step_cases (.reachable h) hf ht hs).right hf₂)

end Config.Once

end Lazy
end AsyncSimple
