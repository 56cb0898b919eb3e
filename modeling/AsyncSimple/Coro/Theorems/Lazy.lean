import AsyncSimple.Lib.Count
import AsyncSimple.Coro.Lazy
import AsyncSimple.Coro.Theorems.CollectAll
import AsyncSimple.Coro.Theorems.CollectAny

open Transition

namespace AsyncSimple
namespace Lazy

variable {ε α ξ θ χ : Type}

namespace Node

def id : Node → Nat
  | coro id | starter id | child id _ => id

def one (a n : Node) : Nat :=
  if a = n then 1 else 0

end Node

namespace Stage

def isInitial : Stage ε α ξ k → Bool
  | initial _ => true
  | _         => false

def isFinal : Stage ε α ξ k → Bool
  | final => true
  | _     => false

def child : Stage ε α ξ k → Option Nat
  | awaiting child _ => some child
  | _                => none

end Stage

-- The coroutine has been awaited, and has not come to its end yet.
def Frame.alive (f : Frame ε α ξ θ k) : Bool :=
  f.continuation_.isSome && !f.stage.isFinal

namespace Cell

-- What is run after the code of this cell.
def next : Cell ε α ξ θ χ → Option Node
  | lazy f                           => if f.alive then f.continuation_.map .coro else none
  | via _ continuation resumed       => if resumed then none else some (.coro continuation)
  | launch _ _ (.child q j) _        => some (.child q j)
  | launch _ _ .caller _ | destroyed => none
  | collectAll _ _ setup state       =>
    if state.resumed.isEmpty then some (.coro setup.continuation) else none
  | collectAny _ _ setup state       =>
    if state.resumed.isEmpty then some (.coro setup.continuation) else none

def ahead (x : Cell ε α ξ θ χ) (n : Node) : Nat :=
  x.next.elim 0 (·.one n)

-- The code of the cell with this number that is still to be run.
def needs (id : Nat) (n : Node) : Cell ε α ξ θ χ → Nat
  | lazy f                     => if f.alive then (Node.coro id).one n else 0
  | via _ _ resumed            => if resumed then 0 else (Node.coro id).one n
  | launch _ _ _ _             => (Node.coro id).one n
  | collectAll _ _ _ state     =>
    (if state.starter.pending then (Node.starter id).one n else 0) +
      ∑ j, if (state.child j).pending then (Node.child id j).one n else 0
  | collectAny _ _ _ state     =>
    (if state.starter.pending then (Node.starter id).one n else 0) +
      ∑ j, if (state.child j).pending then (Node.child id j).one n else 0
  | destroyed                  => 0

def cont : Cell ε α ξ θ χ → Option Nat
  | lazy f => f.continuation_
  | _      => none

def target : Cell ε α ξ θ χ → Option Nat
  | via _ continuation _ => some continuation
  | _                    => none

-- The coroutine whose result this one is waiting for.
def child : Cell ε α ξ θ χ → Option Nat
  | lazy f                    => f.stage.child
  | launch _ child _ awaiting => if awaiting then some child else none
  | _                         => none

end Cell

namespace Config

-- The holders of some code: it is in a token, or is to be run after the code of a cell, or has been
-- refused by an executor.
def holds (s : Config ε α ξ θ χ) (n : Node) : Nat :=
  s.tokens.countP (·.node = n) + s.cells.countP (·.next = some n) + s.refused.count n

def needs (s : Config ε α ξ θ χ) (n : Node) : Nat :=
  s.cells[n.id]?.elim 0 (·.needs n.id n)

-- The continuation of a coroutine, and that of a `ViaCoroutine`.

def cont (s : Config ε α ξ θ χ) (c : Nat) : Option Nat :=
  s.cells[c]?.bind (·.cont)

def target (s : Config ε α ξ θ χ) (v : Nat) : Option Nat :=
  s.cells[v]?.bind (·.target)

-- The child has the coroutine as its continuation, which may be wrapped by a `ViaCoroutine`.
def Awaits (s : Config ε α ξ θ χ) (c child : Nat) : Prop :=
  ∃ h, s.cont child = some h ∧ (h = c ∨ s.target h = some c)

-- A cell refers to those that have been created before it.
def Linked (s : Config ε α ξ θ χ) (c : Nat) : Cell ε α ξ θ χ → Prop
  | .lazy f =>
    (f.continuation_ = none → f.stage.isInitial) ∧ (∀ h, f.continuation_ = some h → h < c) ∧
    (∀ child, f.stage.child = some child → s.Awaits c child)
  | .via _ continuation _ => continuation < c
  | .launch _ child callback awaiting =>
    child = c + 1 ∧ child < s.cells.length ∧ s.cont child = (if awaiting then some c else none) ∧
    (∀ q j, callback = .child q j → q < c)
  | .collectAll _ _ setup state => setup.continuation < c ∧ setup.system.Reachable state
  | .collectAny (n := n) _ _ setup state =>
    setup.continuation < c ∧ 0 < n ∧ setup.system.Reachable state
  | .destroyed => True

end Config

-- Each piece of code that is still to be run has exactly one holder, where `l` is the code that the
-- current step holds.
structure Holding (s : Config ε α ξ θ χ) (l : List Node) : Prop where
  owes   : s.fault = none → ∀ n, s.holds n + (l.map (·.one n)).sum = s.needs n
  linked : ∀ c x, s.cells[c]? = some x → s.Linked c x

variable {s s₁ s₂ : Config ε α ξ θ χ} {x y : Cell ε α ξ θ χ}

-- How the steps of a configuration change the number of holders.

theorem one_self (a : Node) : a.one a = 1 := if_pos rfl

theorem holds_put : (s.put p a).holds n = s.holds n + a.one n := by
  simp only [Config.holds, Config.put, Node.one, List.countP_append, List.countP_singleton, decide_eq_true_eq]
  omega

theorem holds_take (h : s.tokens[i]? = some tok) : (s.take i).holds n + tok.node.one n = s.holds n := by
  have := Count.countP_eraseIdx (p := (·.node = n)) h
  simp only [decide_eq_true_eq] at this
  simp only [Config.holds, Config.take, Node.one]
  omega

theorem ahead_eq : (if x.next = some n then 1 else 0) = x.ahead n := by
  cases h : x.next <;> simp [Cell.ahead, Node.one, h]

theorem holds_set (y : Cell ε α ξ θ χ) (n : Node) (h : s.cells[c]? = some x) :
    (s.set c y).holds n + x.ahead n = s.holds n + y.ahead n := by
  have := Count.countP_set (p := (·.next = some n)) y h
  simp only [decide_eq_true_eq, ahead_eq] at this
  simp only [Config.holds, Config.set]
  omega

theorem holds_add : (s.add y).holds n = s.holds n + y.ahead n := by
  simp only [Config.holds, Config.add, List.countP_append, List.countP_singleton, decide_eq_true_eq, ahead_eq]
  omega

theorem needs_of_ne (h : n.id ≠ c) : x.needs c n = 0 := by
  have h₁ : (Node.coro c).one n = 0 := if_neg fun e => h (by rw [← e]; rfl)
  have h₂ : (Node.starter c).one n = 0 := if_neg fun e => h (by rw [← e]; rfl)
  have h₃ (j : Nat) : (Node.child c j).one n = 0 := if_neg fun e => h (by rw [← e]; rfl)
  cases x <;> simp [Cell.needs, h₁, h₂, h₃]

theorem needs_set (y : Cell ε α ξ θ χ) (n : Node) (h : s.cells[c]? = some x) :
    (s.set c y).needs n + x.needs c n = s.needs n + y.needs c n := by
  by_cases hn : n.id = c
  · subst hn
    have hl := (List.getElem?_eq_some_iff.mp h).1
    simp only [Config.needs, Config.set, List.getElem?_set_self hl, h, Option.elim_some]
    omega
  · simp [Config.needs, Config.set, List.getElem?_set_ne (Ne.symm hn), needs_of_ne hn]

theorem needs_add : (s.add y).needs n = s.needs n + y.needs s.cells.length n := by
  by_cases hn : n.id = s.cells.length
  · simp [Config.needs, Config.add, hn]
  · rw [needs_of_ne hn]
    simp only [Config.needs, Config.add, List.getElem?_append]
    split
    case isTrue  => rfl
    case isFalse => simp [List.getElem?_eq_none (show s.cells.length ≤ n.id by omega), show n.id - s.cells.length ≠ 0 by omega]

theorem holds_submit :
    (s.submit e context a accept).holds n = s.holds n + a.one n := by
  cases accept
  case true => exact holds_put
  case false =>
    simp only [Config.submit, Config.holds, Node.one, List.count_append, List.count_singleton, beq_iff_eq,
      Bool.false_eq_true, if_false]
    omega

theorem ahead_alive {f : Frame ε α ξ θ k} (ha : f.alive) (hp : f.continuation_ = some p) :
    (Cell.lazy f : Cell ε α ξ θ χ).ahead n = (Node.coro p).one n := by
  simp [Cell.ahead, Cell.next, ha, hp]

theorem needs_alive {f : Frame ε α ξ θ k} (ha : f.alive) :
    (Cell.lazy f : Cell ε α ξ θ χ).needs c n = (Node.coro c).one n :=
  if_pos ha

theorem ahead_not_alive {f : Frame ε α ξ θ k} (ha : f.alive = false) :
    (Cell.lazy f : Cell ε α ξ θ χ).ahead n = 0 := by
  simp [Cell.ahead, Cell.next, ha]

theorem needs_not_alive {f : Frame ε α ξ θ k} (ha : f.alive = false) :
    (Cell.lazy f : Cell ε α ξ θ χ).needs c n = 0 :=
  if_neg (by simp [ha])

-- What an update of a cell, and a new cell, keep of the links between the cells.

theorem cont_set (h : s.cells[c]? = some x) (hy : y.cont = x.cont) (id : Nat) :
    (s.set c y).cont id = s.cont id := by
  by_cases hid : id = c
  · subst hid
    have hl := (List.getElem?_eq_some_iff.mp h).1
    simp [Config.cont, Config.set, List.getElem?_set_self hl, h, hy]
  · simp [Config.cont, Config.set, List.getElem?_set_ne (Ne.symm hid)]

theorem target_set (h : s.cells[c]? = some x) (hy : y.target = x.target) (id : Nat) :
    (s.set c y).target id = s.target id := by
  by_cases hid : id = c
  · subst hid
    have hl := (List.getElem?_eq_some_iff.mp h).1
    simp [Config.target, Config.set, List.getElem?_set_self hl, h, hy]
  · simp [Config.target, Config.set, List.getElem?_set_ne (Ne.symm hid)]

theorem cont_add (h : c < s.cells.length) : (s.add y).cont c = s.cont c := by
  simp [Config.cont, Config.add, List.getElem?_append_left h]

theorem target_add (h : c < s.cells.length) : (s.add y).target c = s.target c := by
  simp [Config.target, Config.add, List.getElem?_append_left h]

theorem lt_of_cont (h : s.cont c = some p) : c < s.cells.length := by
  by_contra hl
  simp [Config.cont, List.getElem?_eq_none (Nat.le_of_not_lt hl)] at h

theorem lt_of_target (h : s.target c = some p) : c < s.cells.length := by
  by_contra hl
  simp [Config.target, List.getElem?_eq_none (Nat.le_of_not_lt hl)] at h

-- A link stays as it is, if the cells that it refers to keep their continuations.
theorem Config.Awaits.mono {c child : Nat} (h : s₁.Awaits c child)
    (hc : ∀ p, s₁.cont child = some p → s₂.cont child = some p)
    (ht : ∀ v p, s₁.target v = some p → s₂.target v = some p) : s₂.Awaits c child := by
  obtain ⟨p, hp, h⟩ := h
  exact ⟨p, hc p hp, h.imp_right (ht p c)⟩

theorem Config.Linked.mono (h : s₁.Linked c x) (hl : s₁.cells.length ≤ s₂.cells.length)
    (hc : ∀ id < s₁.cells.length, s₂.cont id = s₁.cont id)
    (ht : ∀ v < s₁.cells.length, s₂.target v = s₁.target v) : s₂.Linked c x := by
  have ht (v p : Nat) (h : s₁.target v = some p) : s₂.target v = some p :=
    (ht v (lt_of_target h)).trans h
  cases x
  case lazy =>
    exact ⟨h.1, h.2.1, fun child hs => (h.2.2 child hs).mono (fun p hp => (hc _ (lt_of_cont hp)).trans hp) ht⟩
  case launch => exact ⟨h.1, by have := h.2.1; omega, (hc _ h.2.1).trans h.2.2.1, h.2.2.2⟩
  all_goals exact h

namespace Holding

theorem put (h : Holding s (a :: l)) : Holding (s.put p a) l where
  owes hf n := by
    have := h.owes hf n
    have := holds_put (s := s) (p := p) (a := a) (n := n)
    simp only [List.map_cons, List.sum_cons, Config.needs, Config.put] at *
    omega
  linked := h.linked

theorem take (h : Holding s []) (ht : s.tokens[i]? = some tok) : Holding (s.take i) [tok.node] where
  owes hf n := by
    have := h.owes hf n
    have := holds_take (n := n) ht
    simp only [List.map_cons, List.map_nil, List.sum_cons, List.sum_nil, Config.needs, Config.take] at *
    omega
  linked := h.linked

theorem submit (h : Holding s (a :: l)) : Holding (s.submit e context a accept) l where
  owes hf n := by
    have hs : s.fault = none := by cases accept <;> exact hf
    have hn : (s.submit e context a accept).needs n = s.needs n := by cases accept <;> rfl
    have := h.owes hs n
    have h₁ : (s.submit e context a accept).holds n = s.holds n + a.one n := holds_submit
    simp only [List.map_cons, List.sum_cons] at *
    omega
  linked c x hx := by
    cases accept
    case true  => exact h.linked c x hx
    case false => exact h.linked c x hx

theorem fail (h : Holding s l) : Holding (s.fail f) r where
  owes   := nofun
  linked := h.linked

theorem schedule (h : Holding s (a :: l)) : Holding (s.schedule e a accept) l := by
  cases e
  case none => exact h.fail
  case some => exact h.submit

-- A step changes a cell, but not its links.
theorem set {y : Cell ε α ξ θ χ} (h : Holding s l) (hx : s.cells[c]? = some x)
    (hc : y.cont = x.cont) (ht : y.target = x.target) (hl : s.Linked c y)
    (hw : ∀ n, (r.map (·.one n)).sum + y.ahead n + x.needs c n =
      (l.map (·.one n)).sum + x.ahead n + y.needs c n) : Holding (s.set c y) r where
  owes hf n := by
    have h₁ := h.owes hf n
    have h₂ := holds_set y n hx
    have h₃ := needs_set y n hx
    have h₄ := hw n
    omega
  linked id z hz := by
    have hm {z : Cell ε α ξ θ χ} (hz : s.Linked id z) : (s.set c y).Linked id z :=
      hz.mono (by simp [Config.set]) (fun id _ => cont_set hx hc id) (fun id _ => target_set hx ht id)
    by_cases hid : id = c
    · subst hid
      rw [Config.set, List.getElem?_set_self (List.getElem?_eq_some_iff.mp hx).1] at hz
      cases hz
      exact hm hl
    · rw [Config.set, List.getElem?_set_ne (Ne.symm hid)] at hz
      exact hm (h.linked id z hz)

theorem add {y : Cell ε α ξ θ χ} (h : Holding s l) (hl : (s.add y).Linked s.cells.length y)
    (hw : ∀ n, (r.map (·.one n)).sum + y.ahead n = (l.map (·.one n)).sum + y.needs s.cells.length n) :
    Holding (s.add y) r where
  owes hf n := by
    have h₁ := h.owes hf n
    have h₂ := holds_add (s := s) (y := y) (n := n)
    have h₃ := needs_add (s := s) (y := y) (n := n)
    have h₄ := hw n
    omega
  linked id z hz := by
    by_cases hid : id < s.cells.length
    · rw [Config.add, List.getElem?_append_left hid] at hz
      exact (h.linked id z hz).mono (by simp [Config.add]) (fun _ => cont_add) (fun _ => target_add)
    · rw [Config.add, List.getElem?_append_right (Nat.le_of_not_lt hid), List.getElem?_singleton] at hz
      split at hz <;> cases hz
      obtain rfl : id = s.cells.length := by omega
      exact hl

-- The code that a step holds is still to be run, and nothing else holds it.

theorem needs_pos (h : Holding s (a :: l)) (hf : s.fault = none) : 0 < s.needs a := by
  have := h.owes hf a
  simp only [List.map_cons, List.sum_cons, one_self] at this
  omega

theorem alive {f : Frame ε α ξ θ k} (h : Holding s (.coro c :: l)) (hf : s.fault = none)
    (hc : s.cells[c]? = some (.lazy f)) : f.alive := by
  have := h.needs_pos hf
  by_contra ha
  simp [Config.needs, Node.id, hc, Cell.needs, ha] at this

theorem needs_coro_le (s : Config ε α ξ θ χ) (c : Nat) : s.needs (.coro c) ≤ 1 := by
  have h₁ : (Node.starter c).one (.coro c) = 0 := rfl
  have h₂ (j : Nat) : (Node.child c j).one (.coro c) = 0 := rfl
  simp only [Config.needs, Node.id]
  cases s.cells[c]?
  case none   => exact Nat.zero_le _
  case some x =>
    cases x <;> simp only [Option.elim_some, Cell.needs, one_self, h₁, h₂, ite_self, Finset.sum_const_zero]
    case lazy => split <;> omega
    case via  => split <;> omega
    all_goals omega

theorem next_ne (h : Holding s (.coro c :: l)) (hf : s.fault = none) {d : Nat} (hx : s.cells[d]? = some x) :
    x.next ≠ some (.coro c) := by
  intro hn
  have h₁ := h.owes hf (.coro c)
  have h₂ := needs_coro_le s c
  have h₃ : 0 < s.cells.countP (·.next = some (.coro c)) :=
    List.countP_pos_iff.mpr ⟨x, List.mem_of_getElem? hx, by simpa using hn⟩
  simp only [List.map_cons, List.sum_cons, one_self, Config.holds] at h₁
  omega

-- Nor does a `ViaCoroutine` come next that leads to this coroutine: as it has a holder then, it has not
-- been resumed, and will resume the coroutine.
theorem next_ne_via (h : Holding s (.coro c :: l)) (hf : s.fault = none) {d : Nat} (hx : s.cells[d]? = some x)
    (ht : p = c ∨ s.target p = some c) : x.next ≠ some (.coro p) := by
  intro hn
  obtain rfl | ht := ht
  case inl => exact h.next_ne hf hx hn
  case inr =>
    simp only [Config.target, Option.bind_eq_some_iff] at ht
    obtain ⟨y, hy, ht⟩ := ht
    cases y <;> simp only [Cell.target, reduceCtorEq, Option.some.injEq] at ht
    case via context _ resumed =>
      subst ht
      have h₁ := h.owes hf (.coro p)
      have h₂ : 0 < s.cells.countP (·.next = some (.coro p)) :=
        List.countP_pos_iff.mpr ⟨_, List.mem_of_getElem? hx, by simpa using hn⟩
      cases resumed
      case true =>
        simp only [Config.holds, Config.needs, Node.id, hy, Option.elim_some, Cell.needs, if_true] at h₁
        omega
      case false => exact h.next_ne hf hy rfl

-- Thus, the child of a coroutine that is running on is at its end.
theorem final {f : Frame ε α ξ θ k} (h : Holding s (.coro c :: l)) (hf : s.fault = none)
    (ha : s.Awaits c child) (hc : s.cells[child]? = some (.lazy f)) : f.alive = false := by
  obtain ⟨p, hp, ht⟩ := ha
  simp only [Config.cont, hc, Option.bind_some, Cell.cont] at hp
  by_contra hal
  rw [Bool.not_eq_false] at hal
  exact h.next_ne_via hf hc ht (by simp [Cell.next, hal, hp])

theorem isFinal {f : Frame ε α ξ θ k} (h : Holding s (.coro c :: l)) (hf : s.fault = none)
    (ha : s.Awaits c child) (hc : s.cells[child]? = some (.lazy f)) : f.stage.isFinal := by
  obtain ⟨p, hp, _⟩ := id ha
  have hp : f.continuation_ = some p := by simpa [Config.cont, hc, Cell.cont] using hp
  simpa [Frame.alive, hp] using h.final hf ha hc

-- A coroutine that is not at its end moves on.
theorem enter {f : Frame ε α ξ θ k} (h : Holding s l) (hc : s.cells[c]? = some (.lazy f)) (ha : f.alive)
    {stage : Stage ε α ξ k} (hs : stage.isFinal = false) (hl : ∀ child, stage.child = some child → s.Awaits c child) :
    Holding (s.enter t c f stage) l := by
  simp only [Frame.alive, Bool.and_eq_true] at ha
  have hcont : f.continuation_ ≠ none := Option.isSome_iff_ne_none.mp ha.left
  refine h.set hc rfl rfl ⟨fun hn => absurd hn hcont, (h.linked c _ hc).2.1, hl⟩ fun n => ?_
  simp only [Cell.ahead, Cell.next, Cell.needs, Frame.alive, ha, hs]
  simp

theorem proceed {f : Frame ε α ξ θ k} (h : Holding s (.coro c :: l)) (hc : s.cells[c]? = some (.lazy f))
    (ha : f.alive) : Holding (s.proceed t c f body) l :=
  (h.enter hc ha rfl (fun _ h => by contradiction)).put

theorem finalSuspend {f : Frame ε α ξ θ k} (h : Holding s [.coro c]) (hc : s.cells[c]? = some (.lazy f))
    (ha : f.alive) : Holding (s.finalSuspend t c f result) [] := by
  have hl := h.linked c _ hc
  simp only [Config.finalSuspend]
  split
  case h_1 => exact h.fail
  case h_2 p hp =>
    refine put (set (r := [.coro p]) h hc rfl rfl ⟨fun hn => ?_, hl.2.1, fun _ h => by contradiction⟩ fun n => ?_)
    · simp [hp] at hn
    · have hn : Frame.alive { f with result, stage := .final, thread := some t } = false := Bool.and_false _
      rw [ahead_alive ha hp, needs_alive ha, ahead_not_alive hn, needs_not_alive hn]
      simp only [List.map_cons, List.map_nil, List.sum_cons, List.sum_nil]
      omega

-- The coroutine that waits for the result of another one is determined by the latter.
theorem awaits_child (h : Holding s l) (hx : s.cells[c]? = some x) (hc : x.child = some child) :
    s.Awaits c child ∧ s.target c = none := by
  have hl := h.linked c x hx
  cases x <;> simp only [Cell.child, reduceCtorEq] at hc
  case lazy f => exact ⟨hl.2.2 child hc, by simp [Config.target, hx, Cell.target]⟩
  case launch re child' callback awaiting =>
    split at hc <;> cases hc
    case isTrue ha =>
      exact ⟨⟨c, by simpa [ha] using hl.2.2.1, .inl rfl⟩, by simp [Config.target, hx, Cell.target]⟩

theorem child_ne (h : Holding s l) (hx : s.cells[c]? = some x) (hc : x.child = some child) {d : Nat}
    (hy : s.cells[d]? = some y) (hd : d ≠ c) : y.child ≠ some child := by
  intro hy'
  obtain ⟨⟨p, hp, h₁⟩, ht₁⟩ := h.awaits_child hx hc
  obtain ⟨⟨q, hq, h₂⟩, ht₂⟩ := h.awaits_child hy hy'
  obtain rfl : p = q := Option.some.inj (hp ▸ hq)
  obtain rfl | h₁ := h₁ <;> obtain rfl | h₂ := h₂
  · exact hd rfl
  · simp [ht₁] at h₂
  · simp [ht₂] at h₁
  · exact hd (Option.some.inj (h₂ ▸ h₁))

-- A coroutine that is at its end is destroyed, when no other one waits for its result.
theorem destroy {f : Frame ε α ξ θ k} (h : Holding s l) (hc : s.cells[c]? = some (.lazy f))
    (hf : f.alive = false) (hr : ∀ (d : Nat) (y : Cell ε α ξ θ χ), s.cells[d]? = some y → y.child ≠ some c) :
    Holding (s.destroy c) l where
  owes hs n := by
    have h₁ := h.owes hs n
    have h₂ := holds_set .destroyed n hc
    have h₃ := needs_set .destroyed n hc
    rw [ahead_not_alive hf] at h₂
    rw [needs_not_alive hf] at h₃
    have h₄ : (Cell.destroyed : Cell ε α ξ θ χ).ahead n = 0 := rfl
    have h₅ : (Cell.destroyed : Cell ε α ξ θ χ).needs c n = 0 := rfl
    simp only [Config.destroy]
    omega
  linked d y hy := by
    have ht (v : Nat) : (s.destroy c).target v = s.target v := target_set (y := .destroyed) hc rfl v
    have hn {id : Nat} (hid : id ≠ c) : (s.destroy c).cont id = s.cont id := by
      simp [Config.cont, Config.destroy, Config.set, List.getElem?_set_ne (Ne.symm hid)]
    have hlen : (s.destroy c).cells.length = s.cells.length := by simp [Config.destroy, Config.set]
    by_cases hd : d = c
    · subst hd
      rw [Config.destroy, Config.set, List.getElem?_set_self (List.getElem?_eq_some_iff.mp hc).1] at hy
      cases hy
      trivial
    · rw [Config.destroy, Config.set, List.getElem?_set_ne (Ne.symm hd)] at hy
      have hl := h.linked d y hy
      have hr := hr d y hy
      cases y
      case lazy e =>
        refine ⟨hl.1, hl.2.1, fun child hs => (hl.2.2 child hs).mono (fun p hp => ?_) fun v p hp => (ht v).trans hp⟩
        exact (hn fun (he : child = c) => hr (he ▸ hs)).trans hp
      case launch re child callback awaiting =>
        refine ⟨hl.1, hlen ▸ hl.2.1, ?_, hl.2.2.2⟩
        by_cases hch : child = c
        · have hna : awaiting = false := by simpa [Cell.child, hch] using hr
          subst hch
          simp [hna, Config.cont, Config.destroy, Config.set,
            List.getElem?_set_self (List.getElem?_eq_some_iff.mp hc).1, Cell.cont]
        · rw [hn hch]
          exact hl.2.2.1
      all_goals exact hl

theorem alive_new {body : Body ε α ξ k} {executor_ : Option ξ} {thread : Option θ} :
    (Frame.new body executor_ continuation_ thread).alive = continuation_.isSome :=
  Bool.and_true _

-- `Start` launches a coroutine with a child, which is not awaited yet.
theorem start {child : Body ε α ξ k} {t : θ} (h : Holding s [.child q j]) (hq : q < s.cells.length) :
    Holding (s.start t reschedule child executor_ (.child q j)) [] := by
  refine put (l := []) ⟨fun hf n => ?_, fun c x hx => ?_⟩
  · have h₁ := h.owes hf n
    simp only [holds_add, needs_add, List.map_cons, List.map_nil, List.sum_cons, List.sum_nil]
    rw [ahead_not_alive alive_new, needs_not_alive alive_new]
    simp only [Cell.ahead, Cell.next, Cell.needs, Option.elim_some, List.map_cons, List.map_nil,
      List.sum_cons, List.sum_nil] at h₁ ⊢
    omega
  · simp only [Config.add, List.append_assoc] at hx ⊢
    by_cases hc : c < s.cells.length
    · rw [List.getElem?_append_left hc] at hx
      refine (h.linked c x hx).mono (by simp) (fun id hid => ?_) fun id hid => ?_
      · simp [Config.cont, List.getElem?_append_left hid]
      · simp [Config.target, List.getElem?_append_left hid]
    · obtain ⟨d, rfl⟩ := Nat.exists_eq_add_of_le (Nat.le_of_not_lt hc)
      rw [List.getElem?_append_right (Nat.le_add_right ..), Nat.add_sub_cancel_left] at hx
      match d, hx with
      | 0, hx =>
        cases hx
        refine ⟨rfl, by simp, ?_, fun _ _ e => by cases e; exact hq⟩
        simp [Config.cont, Cell.cont, Frame.new]
      | 1, hx =>
        cases hx
        exact ⟨fun _ => rfl, nofun, nofun⟩

-- The launched coroutine awaits its child.
theorem await {f : Frame ε α ξ θ k} (h : Holding s (.coro c :: l))
    (hc : s.cells[c]? = some (.launch reschedule child callback false))
    (hf : s.cells[child]? = some (.lazy f)) (thread : Option θ) :
    Holding ((s.set c (.launch reschedule child callback true)).set child
      (.lazy { f with continuation_ := some c, thread })) (.coro child :: l) := by
  obtain ⟨rfl, hlen, hn, hq⟩ := h.linked c _ hc
  have hn : f.continuation_ = none := by simpa [Config.cont, hf, Cell.cont] using hn
  have hs : f.stage.isFinal = false := by
    have := (h.linked _ _ hf).1 hn
    cases hs : f.stage <;> simp_all [Stage.isInitial, Stage.isFinal]
  let f' : Frame ε α ξ θ k := { f with continuation_ := some c, thread }
  have ha : f.alive = false := by simp [Frame.alive, hn]
  have ha' : f'.alive := by simp [f', Frame.alive, hs]
  have hf' : (s.set c (.launch reschedule (c + 1) callback true)).cells[c + 1]? = some (.lazy f) := by
    simpa [Config.set, List.getElem?_set_ne (show c ≠ c + 1 by omega)] using hf
  have hset : ((s.set c (.launch reschedule (c + 1) callback true)).set (c + 1) (.lazy f')).cells =
      (s.cells.set c (.launch reschedule (c + 1) callback true)).set (c + 1) (.lazy f') := rfl
  suffices Holding ((s.set c (.launch reschedule (c + 1) callback true)).set (c + 1) (.lazy f'))
    (.coro (c + 1) :: l) from this
  constructor
  case owes =>
    intro hfault n
    have h₁ := h.owes hfault n
    have h₂ := holds_set (.launch reschedule (c + 1) callback true) n hc
    have h₃ := needs_set (.launch reschedule (c + 1) callback true) n hc
    have h₄ := holds_set (.lazy f') n hf'
    have h₅ := needs_set (.lazy f') n hf'
    rw [ahead_not_alive ha, ahead_alive ha' rfl] at h₄
    rw [needs_not_alive ha, needs_alive ha'] at h₅
    have h₆ : (Cell.launch reschedule (c + 1) callback true : Cell ε α ξ θ χ).ahead n =
        (Cell.launch reschedule (c + 1) callback false : Cell ε α ξ θ χ).ahead n := by cases callback <;> rfl
    simp only [Cell.needs, List.map_cons, List.sum_cons] at *
    omega
  case linked =>
    intro d y hy
    -- Only the continuation of the child changes, and nothing has waited for it before.
    have ht (v : Nat) : ((s.set c (.launch reschedule (c + 1) callback true)).set (c + 1) (.lazy f')).target v =
        s.target v := (target_set (y := .lazy f') hf' rfl v).trans
        (target_set (y := .launch reschedule (c + 1) callback true) hc rfl v)
    have hcont {id : Nat} (hid : id ≠ c + 1) :
        ((s.set c (.launch reschedule (c + 1) callback true)).set (c + 1) (.lazy f')).cont id = s.cont id := by
      refine .trans ?_ (cont_set (y := .launch reschedule (c + 1) callback true) hc rfl id)
      simp [Config.cont, Config.set, List.getElem?_set_ne (Ne.symm hid)]
    have hself : ((s.set c (.launch reschedule (c + 1) callback true)).set (c + 1) (.lazy f')).cont (c + 1) = some c := by
      simp [Config.cont, hset, hlen, Cell.cont, f']
    have hnone : s.cont (c + 1) = none := by simp [Config.cont, hf, Cell.cont, hn]
    rw [hset] at hy
    by_cases hd : d = c + 1
    · subst hd
      rw [List.getElem?_set_self (by simpa using hlen)] at hy
      cases hy
      refine ⟨nofun, fun _ e => by cases e; omega, fun child hs => ?_⟩
      have := (h.linked _ _ hf).1 hn
      change f.stage.child = _ at hs
      cases hst : f.stage <;> simp_all [Stage.isInitial, Stage.child]
    · rw [List.getElem?_set_ne (Ne.symm hd)] at hy
      by_cases hdc : d = c
      · subst hdc
        rw [List.getElem?_set_self (by omega)] at hy
        cases hy
        exact ⟨rfl, by simpa [hset] using hlen, hself, hq⟩
      · rw [List.getElem?_set_ne (Ne.symm hdc)] at hy
        have hl := h.linked d y hy
        cases y
        case lazy e =>
          refine ⟨hl.1, hl.2.1, fun child hs => (hl.2.2 child hs).mono (fun p hp => ?_) fun v p hp => (ht v).trans hp⟩
          exact (hcont (by rintro rfl; simp [hnone] at hp)).trans hp
        case launch re child callback awaiting =>
          obtain ⟨rfl, h₁, h₂, h₃⟩ := hl
          refine ⟨rfl, by simpa [hset] using h₁, ?_, h₃⟩
          rw [hcont (by omega), h₂]
        all_goals exact hl

theorem lt_of_getElem? {l : List β} {x : β} (h : l[i]? = some x) : i < l.length :=
  (List.getElem?_eq_some_iff.mp h).1

-- A `ViaCoroutine` takes the place of the coroutine that it wraps.
theorem via {executor_ : Option ξ} {t : θ} (h : Holding s [.coro c]) (hc : c < s.cells.length)
    (m : Setup ε α ξ θ χ) : Holding (s.add (m.via executor_ t c)) [.coro s.cells.length] := by
  refine h.add hc fun n => ?_
  simp only [Setup.via, Cell.ahead, Cell.next, Cell.needs, Bool.false_eq_true, if_false, Option.elim_some,
    List.map_cons, List.map_nil, List.sum_cons, List.sum_nil]
  omega

theorem getElem?_add {c : Nat} (h : s.cells[c]? = some x) : (s.add y).cells[c]? = some x := by
  rw [Config.add, List.getElem?_append_left (lt_of_getElem? h), h]

theorem getElem?_set {c d : Nat} (hd : d ≠ c) (h : s.cells[c]? = some x) : (s.set d y).cells[c]? = some x :=
  (List.getElem?_set_ne hd).trans h

theorem getElem?_wrap (m : Setup ε α ξ θ χ) (reschedule : Bool) (executor_ : Option ξ) (t : θ) {c : Nat} (d : Nat)
    (hc : s.cells[c]? = some x) : (m.wrap s reschedule executor_ t d).1.cells[c]? = some x := by
  cases reschedule
  case false => exact hc
  case true  => exact getElem?_add hc

theorem wrap (m : Setup ε α ξ θ χ) (reschedule : Bool) (executor_ : Option ξ) (t : θ)
    (h : Holding s [.coro c]) (hc : s.cells[c]? = some x) :
    Holding (m.wrap s reschedule executor_ t c).1 [.coro (m.wrap s reschedule executor_ t c).2] ∧
    (m.wrap s reschedule executor_ t c).2 < (m.wrap s reschedule executor_ t c).1.cells.length ∧
    (m.wrap s reschedule executor_ t c).1.cells[c]? = some x := by
  have hcell := getElem?_wrap m reschedule executor_ t c hc
  cases reschedule
  case false => exact ⟨h, lt_of_getElem? hc, hcell⟩
  case true  => exact ⟨h.via (lt_of_getElem? hc) m, by simp [Setup.wrap, Config.add], hcell⟩

theorem addCollectAll {children : Fin n → Body ε α ξ k} {setup : CollectAllAwaiter.Setup n Nat ξ}
    (h : Holding s [.coro setup.continuation]) (hc : setup.continuation < s.cells.length) :
    Holding (s.add (.collectAll reschedule children setup setup.init)) [.starter s.cells.length] := by
  refine h.add ⟨hc, .init⟩ fun n => ?_
  simp only [Cell.ahead, Cell.next, Cell.needs, CollectAllAwaiter.Setup.init, List.isEmpty_nil, if_true,
    Option.elim_some, CollectAllAwaiter.StarterPc.pending, CollectAllAwaiter.ChildPc.pending,
    Bool.false_eq_true, if_false, Finset.sum_const_zero, List.map_cons, List.map_nil, List.sum_cons,
    List.sum_nil]
  omega

theorem addCollectAny {children : Fin n → Body ε α ξ k} {setup : CollectAnyAwaiter.Setup n Nat ξ}
    (h : Holding s [.coro setup.continuation]) (hc : setup.continuation < s.cells.length) (hn : 0 < n) :
    Holding (s.add (.collectAny reschedule children setup setup.init)) [.starter s.cells.length] := by
  refine h.add ⟨hc, hn, .init⟩ fun n => ?_
  simp only [Cell.ahead, Cell.next, Cell.needs, CollectAnyAwaiter.Setup.init, List.isEmpty_nil, if_true,
    Option.elim_some, CollectAnyAwaiter.StarterPc.pending, CollectAnyAwaiter.ChildPc.pending,
    Bool.false_eq_true, if_false, Finset.sum_const_zero, List.map_cons, List.map_nil, List.sum_cons,
    List.sum_nil]
  omega

-- The awaiters of vectors of children take their steps.

section Collect

variable {n : Nat} {q : Nat} {children : Fin n → Body ε α ξ k}

section CollectAll

variable {setup : CollectAllAwaiter.Setup n Nat ξ}
  {state state' : CollectAllAwaiter.Config n ε (Option α) Nat ξ}

theorem invAll (h : Holding s l) (hq : s.cells[q]? = some (.collectAll reschedule children setup state)) :
    CollectAllAwaiter.Inv setup state :=
  .reachable (h.linked _ _ hq).2

theorem setAll (h : Holding s l) (hq : s.cells[q]? = some (.collectAll reschedule children setup state))
    (hs : setup.system.step state a = some state')
    (hw : ∀ n, (r.map (·.one n)).sum +
        (Cell.collectAll reschedule children setup state' : Cell ε α ξ θ χ).ahead n +
        (Cell.collectAll reschedule children setup state : Cell ε α ξ θ χ).needs q n =
      (l.map (·.one n)).sum + (Cell.collectAll reschedule children setup state : Cell ε α ξ θ χ).ahead n +
        (Cell.collectAll reschedule children setup state' : Cell ε α ξ θ χ).needs q n) :
    Holding (s.set q (.collectAll reschedule children setup state')) r :=
  have hl := h.linked _ _ hq
  h.set hq rfl rfl ⟨hl.1, hl.2.step hs⟩ hw

-- A step that changes the state of a child.
theorem moveAll {j : Fin n} {pc : CollectAllAwaiter.ChildPc ε (Option α) Nat} (h : Holding s l)
    (hq : s.cells[q]? = some (.collectAll reschedule children setup state))
    (hs : setup.system.step state a = some state') (hp : state'.starter.pending = state.starter.pending)
    (hc : state'.child = Function.update state.child j pc) (hr : state'.resumed = state.resumed)
    (hw : ∀ n, (r.map (·.one n)).sum + (if (state.child j).pending then (Node.child q j).one n else 0) =
      (l.map (·.one n)).sum + if pc.pending then (Node.child q j).one n else 0) :
    Holding (s.set q (.collectAll reschedule children setup state')) r := by
  refine h.setAll hq hs fun a => ?_
  have h₁ := Count.sum_update_of (fun (k : Fin n) (pc : CollectAllAwaiter.ChildPc ε (Option α) Nat) =>
    if pc.pending then (Node.child q k).one a else 0) state.child j pc
  have h₂ := hw a
  simp only [Cell.ahead, Cell.next, Cell.needs, hp, hc, hr]
  omega

-- A step in which a child resumes the awaiting coroutine.
theorem resumeAll {j : Fin n} {pc : CollectAllAwaiter.ChildPc ε (Option α) Nat} (h : Holding s [.child q j])
    (hq : s.cells[q]? = some (.collectAll reschedule children setup state))
    (hs : setup.system.step state a = some state') (hp : state'.starter.pending = state.starter.pending)
    (hc : state'.child = Function.update state.child j pc) (h₁ : (state.child j).pending)
    (h₂ : pc.pending = false) (h₃ : state.resumed = []) (h₄ : state'.resumed ≠ []) :
    Holding (s.set q (.collectAll reschedule children setup state')) [.coro setup.continuation] := by
  refine h.setAll hq hs fun a => ?_
  have h₅ := Count.sum_update_of (fun (k : Fin n) (pc : CollectAllAwaiter.ChildPc ε (Option α) Nat) =>
    if pc.pending then (Node.child q k).one a else 0) state.child j pc
  have h₄ : state'.resumed.isEmpty = false := by simpa using h₄
  simp only [Cell.ahead, Cell.next, Cell.needs, hp, hc, h₁, h₂, h₃, h₄, List.isEmpty_nil, if_true,
    Bool.false_eq_true, if_false, Option.elim_some, Option.elim_none, List.map_cons, List.map_nil,
    List.sum_cons, List.sum_nil] at h₅ ⊢
  omega

end CollectAll

section CollectAny

variable {setup : CollectAnyAwaiter.Setup n Nat ξ}
  {state state' : CollectAnyAwaiter.Config n ε (Option α) Nat ξ}

theorem invAny (h : Holding s l) (hq : s.cells[q]? = some (.collectAny reschedule children setup state)) :
    CollectAnyAwaiter.Inv setup state :=
  have hl := h.linked _ _ hq
  .reachable hl.2.1 hl.2.2

theorem setAny (h : Holding s l) (hq : s.cells[q]? = some (.collectAny reschedule children setup state))
    (hs : setup.system.step state a = some state')
    (hw : ∀ n, (r.map (·.one n)).sum +
        (Cell.collectAny reschedule children setup state' : Cell ε α ξ θ χ).ahead n +
        (Cell.collectAny reschedule children setup state : Cell ε α ξ θ χ).needs q n =
      (l.map (·.one n)).sum + (Cell.collectAny reschedule children setup state : Cell ε α ξ θ χ).ahead n +
        (Cell.collectAny reschedule children setup state' : Cell ε α ξ θ χ).needs q n) :
    Holding (s.set q (.collectAny reschedule children setup state')) r :=
  have hl := h.linked _ _ hq
  h.set hq rfl rfl ⟨hl.1, hl.2.1, hl.2.2.step hs⟩ hw

theorem moveAny {j : Fin n} {pc : CollectAnyAwaiter.ChildPc ε (Option α)} (h : Holding s l)
    (hq : s.cells[q]? = some (.collectAny reschedule children setup state))
    (hs : setup.system.step state a = some state') (hp : state'.starter.pending = state.starter.pending)
    (hc : state'.child = Function.update state.child j pc) (hr : state'.resumed = state.resumed)
    (hw : ∀ n, (r.map (·.one n)).sum + (if (state.child j).pending then (Node.child q j).one n else 0) =
      (l.map (·.one n)).sum + if pc.pending then (Node.child q j).one n else 0) :
    Holding (s.set q (.collectAny reschedule children setup state')) r := by
  refine h.setAny hq hs fun a => ?_
  have h₁ := Count.sum_update_of (fun (k : Fin n) (pc : CollectAnyAwaiter.ChildPc ε (Option α)) =>
    if pc.pending then (Node.child q k).one a else 0) state.child j pc
  have h₂ := hw a
  simp only [Cell.ahead, Cell.next, Cell.needs, hp, hc, hr]
  omega

theorem resumeAny {j : Fin n} {pc : CollectAnyAwaiter.ChildPc ε (Option α)} (h : Holding s [.child q j])
    (hq : s.cells[q]? = some (.collectAny reschedule children setup state))
    (hs : setup.system.step state a = some state') (hp : state'.starter.pending = state.starter.pending)
    (hc : state'.child = Function.update state.child j pc) (h₁ : (state.child j).pending)
    (h₂ : pc.pending = false) (h₃ : state.resumed = []) (h₄ : state'.resumed ≠ []) :
    Holding (s.set q (.collectAny reschedule children setup state')) [.coro setup.continuation] := by
  refine h.setAny hq hs fun a => ?_
  have h₅ := Count.sum_update_of (fun (k : Fin n) (pc : CollectAnyAwaiter.ChildPc ε (Option α)) =>
    if pc.pending then (Node.child q k).one a else 0) state.child j pc
  have h₄ : state'.resumed.isEmpty = false := by simpa using h₄
  simp only [Cell.ahead, Cell.next, Cell.needs, hp, hc, h₁, h₂, h₃, h₄, List.isEmpty_nil, if_true,
    Bool.false_eq_true, if_false, Option.elim_some, Option.elim_none, List.map_cons, List.map_nil,
    List.sum_cons, List.sum_nil] at h₅ ⊢
  omega

end CollectAny
end Collect

variable {m : Setup ε α ξ θ χ}

-- The steps of a coroutine.

theorem exec {f : Frame ε α ξ θ k} (h : Holding s₁ [.coro c]) (hc : s₁.cells[c]? = some (.lazy f))
    (ha : f.alive) (hs : m.exec s₁ t c env f body = some s₂) : Holding s₂ [] := by
  have hlt := lt_of_getElem? hc
  cases body <;> simp only [Setup.exec] at hs
  case coReturn        => cases hs; exact h.finalSuspend hc ha
  case coReturnVoid    => cases hs; exact h.finalSuspend hc ha
  case throw           => cases hs; exact h.finalSuspend hc ha
  case currentExecutor => cases hs; exact h.proceed hc ha
  case yield           =>
    cases hs
    exact (h.enter hc ha rfl (fun _ h => by contradiction)).schedule
  case schedule        =>
    split at hs <;> cases hs
    case isTrue  => exact h.proceed hc ha
    case isFalse => exact (h.enter hc ha rfl (fun _ h => by contradiction)).submit
  case scheduleAfter   =>
    cases hs
    exact (h.enter hc ha rfl (fun _ h => by contradiction)).submit
  case await child g =>
    cases hs
    have h₁ : Holding (s₁.add (.lazy (.new child f.executor_ (some c) (some t)))) [.coro s₁.cells.length] := by
      refine h.add ⟨nofun, fun _ e => by cases e; exact hlt, nofun⟩ fun n => ?_
      rw [ahead_alive alive_new rfl, needs_alive alive_new]
      simp only [List.map_cons, List.map_nil, List.sum_cons, List.sum_nil]
      omega
    refine (h₁.enter (getElem?_add hc) ha rfl fun id hid => ?_).put
    cases hid
    exact ⟨c, by simp [Config.cont, Config.add, Cell.cont, Frame.new], .inl rfl⟩
  case awaitVia executor child g =>
    cases hs
    have h₁ : Holding (s₁.add (m.via f.executor_ t c)) [.coro s₁.cells.length] := h.via hlt m
    have h₂ : Holding ((s₁.add (m.via f.executor_ t c)).add
        (.lazy (.new child executor (some s₁.cells.length) none))) [.coro (s₁.cells.length + 1)] := by
      have hlen : (s₁.add (m.via f.executor_ t c)).cells.length = s₁.cells.length + 1 := by simp [Config.add]
      refine h₁.add ⟨nofun, fun _ e => by cases e; omega, nofun⟩ fun n => ?_
      rw [ahead_alive alive_new rfl, needs_alive alive_new, hlen]
      simp only [List.map_cons, List.map_nil, List.sum_cons, List.sum_nil]
      omega
    refine (h₂.enter (getElem?_add (getElem?_add hc)) ha rfl fun id hid => ?_).schedule
    cases hid
    refine ⟨s₁.cells.length, ?_, .inr ?_⟩
    · simp [Config.cont, Config.add, Cell.cont, Frame.new]
    · simp [Config.target, Config.add, Setup.via, Cell.target]
  case awaitExternal =>
    split at hs
    case h_1 => cases hs; exact h.proceed hc ha
    case h_2 =>
      cases hs
      exact ((h.via hlt m).enter (getElem?_add hc) ha rfl (fun _ h => by contradiction)).put
    case h_3 =>
      split at hs <;> cases hs
      exact h.proceed hc ha
    case h_4 => cases hs; exact h.proceed hc ha
  case collectAll n para reschedule executors children g =>
    split at hs <;> cases hs
    case isTrue  => exact h.proceed hc ha
    case isFalse =>
      obtain ⟨h₁, h₂, h₃⟩ := h.wrap m reschedule f.executor_ t hc
      exact ((h₁.addCollectAll h₂).enter (getElem?_add h₃) ha rfl (fun _ h => by contradiction)).put
  case collectAny n kind reschedule executors children g =>
    split at hs <;> cases hs
    case isTrue     => exact h.fail
    case isFalse hn =>
      obtain ⟨h₁, h₂, h₃⟩ := h.wrap m reschedule f.executor_ t hc
      exact ((h₁.addCollectAny h₂ (Nat.pos_of_ne_zero hn)).enter (getElem?_add h₃) ha rfl
        (fun _ h => by contradiction)).put

theorem stepLazy {f : Frame ε α ξ θ k} (h : Holding s₁ [.coro c]) (hf : s₁.fault = none)
    (hc : s₁.cells[c]? = some (.lazy f)) (hs : m.stepLazy s₁ t c env f = some s₂) : Holding s₂ [] := by
  have ha := h.alive hf hc
  cases hp : f.stage <;> simp only [Setup.stepLazy, hp] at hs
  case initial   => cases hs; exact h.proceed hc ha
  case running   => exact h.exec hc ha hs
  case suspended => cases hs; exact h.proceed hc ha
  case external  => cases hs; exact h.proceed hc ha
  case final     => contradiction
  case awaiting child g =>
    split at hs <;> cases hs
    case h_1 r hr =>
      have hch : (Cell.lazy f : Cell ε α ξ θ χ).child = some child := by simp [Cell.child, Stage.child, hp]
      obtain ⟨hw, _⟩ := h.awaits_child hc hch
      simp only [Config.result] at hr
      split at hr
      case h_2 => contradiction
      case h_1 f' hf' =>
        have hfin := h.final hf hw hf'
        have hne : child ≠ c := by
          rintro rfl
          rw [hc] at hf'
          cases hf'
          simp [ha] at hfin
        have hf' : (s₁.proceed t c f (g r)).cells[child]? = some (.lazy f') := by
          simpa [Config.proceed, Config.put, Config.enter, Config.set, List.getElem?_set_ne (Ne.symm hne)] using hf'
        refine (h.proceed hc ha).destroy hf' hfin fun d y hy => ?_
        by_cases hd : d = c
        · subst hd
          simp only [Config.proceed, Config.put, Config.enter, Config.set,
            List.getElem?_set_self (lt_of_getElem? hc)] at hy
          cases hy
          simp [Cell.child, Stage.child]
        · simp only [Config.proceed, Config.put, Config.enter, Config.set,
            List.getElem?_set_ne (Ne.symm hd)] at hy
          exact h.child_ne hc hch hy hd
    case h_2 => exact h.fail
  case collectAll =>
    split at hs <;> cases hs
    exact h.proceed hc ha
  case collectAny awaiter g =>
    split at hs
    case h_2 => contradiction
    case h_1 hq =>
      split at hs
      case h_1 => cases hs; exact h.fail
      case h_2 state state' hw =>
        obtain ⟨r, _, rfl⟩ := Option.map_eq_some_iff.mp hs
        obtain ⟨h₁, h₂, h₃, _⟩ := CollectAnyAwaiter.Inv.awaitResume_eq hw
        have hne : awaiter ≠ c := by
          rintro rfl
          simp [hq] at hc
        refine (h.setAny hq (a := .awaitResume) hw fun n => ?_).proceed (getElem?_set hne hc) ha
        simp only [Cell.ahead, Cell.next, Cell.needs, h₁, h₂, h₃]

theorem stepVia {m : Setup ε α ξ θ χ} (h : Holding s [.coro c])
    (hc : s.cells[c]? = some (.via context continuation false)) :
    Holding (m.stepVia (s.set c (.via context continuation true)) t env context continuation) [] := by
  have h₁ : Holding (s.set c (.via context continuation true)) [.coro continuation] := by
    refine h.set hc rfl rfl (show continuation < c from h.linked c _ hc) fun n => ?_
    simp only [Cell.ahead, Cell.next, Cell.needs, if_true, Bool.false_eq_true, if_false, Option.elim_some,
      Option.elim_none, List.map_cons, List.map_nil, List.sum_cons, List.sum_nil]
    omega
  simp only [Setup.stepVia]
  split
  case h_1 => exact h₁.put
  case h_2 =>
    split
    case isTrue  => exact h₁.put
    case isFalse => exact h₁.submit

-- The launched coroutine is left, and its callback takes its place.
theorem finish {f : Frame ε α ξ θ k} (h : Holding s [.coro c])
    (hc : s.cells[c]? = some (.launch reschedule child callback true))
    (hch : s.cells[child]? = some (.lazy f)) (hfin : f.alive = false) :
    Holding ((s.destroy c).destroy child) (match callback with | .caller => [] | .child q j => [.child q j]) := by
  have hne : c ≠ child := by
    rintro rfl
    simp [hc] at hch
  have h₁ : Holding (s.destroy c) (match callback with | .caller => [] | .child q j => [.child q j]) := by
    refine h.set hc rfl rfl trivial fun n => ?_
    cases callback <;>
      simp only [Cell.ahead, Cell.next, Cell.needs, Option.elim_some, Option.elim_none, List.map_cons,
        List.map_nil, List.sum_cons, List.sum_nil] <;>
      omega
  refine h₁.destroy (getElem?_set hne hch) hfin fun d y hy => ?_
  by_cases hd : d = c
  · subst hd
    rw [Config.destroy, Config.set, List.getElem?_set_self (lt_of_getElem? hc)] at hy
    cases hy
    simp [Cell.child]
  · rw [Config.destroy, Config.set, List.getElem?_set_ne (Ne.symm hd)] at hy
    exact h.child_ne hc rfl hy hd

theorem stepLaunch (h : Holding s₁ [.coro c]) (hf : s₁.fault = none)
    (hc : s₁.cells[c]? = some (.launch reschedule child callback awaiting))
    (hs : Setup.stepLaunch s₁ t c env reschedule child callback awaiting = some s₂) : Holding s₂ [] := by
  cases awaiting
  case false =>
    simp only [Setup.stepLaunch, Bool.false_eq_true, if_false] at hs
    split at hs
    case h_2 => contradiction
    case h_1 f hch =>
      split at hs <;> cases hs
      case isTrue  => exact (h.await hc hch f.thread).schedule
      case isFalse => exact (h.await hc hch (some t)).put
  case true =>
    simp only [Setup.stepLaunch, if_true] at hs
    split at hs <;> try contradiction
    case h_2 => cases hs; exact h.fail
    case h_1 r hr =>
      obtain ⟨s, hcb, rfl⟩ := Option.map_eq_some_iff.mp hs
      simp only [Config.result] at hr
      split at hr <;> try contradiction
      case h_1 f hch =>
      have hfin := h.final hf (h.awaits_child hc rfl).1 hch
      cases callback
      case caller =>
        cases hcb
        have := h.finish hc hch hfin
        exact ⟨this.owes, this.linked⟩
      case child q j =>
        simp only [Setup.callback] at hcb
        split at hcb <;> try contradiction
        case h_1 hq =>
          split at hcb <;> try contradiction
          case isTrue hj =>
          obtain ⟨state', hw, rfl⟩ := Option.map_eq_some_iff.mp hcb
          obtain ⟨h₁, h₂, h₃, _, h₅⟩ := CollectAllAwaiter.Inv.complete_eq hw
          have h' := h.moveAll hq (a := .complete ⟨j, hj⟩ r) hw (by rw [h₃]) h₂ h₅
            fun n => by rw [h₁]; rfl
          exact put (h'.finish (getElem?_set (by rintro rfl; simp [hq] at hc) hc)
            (getElem?_set (by rintro rfl; simp [hq] at hch) hch) hfin)
        case h_2 hq =>
          split at hcb <;> try contradiction
          case isTrue hj =>
          obtain ⟨state', hw, rfl⟩ := Option.map_eq_some_iff.mp hcb
          obtain ⟨h₁, h₂, h₃, _, h₅⟩ := CollectAnyAwaiter.Inv.complete_eq hw
          have h' := h.moveAny hq (a := .complete ⟨j, hj⟩ r) hw (by rw [h₃]) h₂ h₅
            fun n => by rw [h₁]; rfl
          exact put (h'.finish (getElem?_set (by rintro rfl; simp [hq] at hc) hc)
            (getElem?_set (by rintro rfl; simp [hq] at hch) hch) hfin)

theorem stepStarter (h : Holding s₁ [.starter q]) (hs : Setup.stepStarter s₁ t q env = some s₂) :
    Holding s₂ [] := by
  simp only [Setup.stepStarter] at hs
  split at hs <;> try contradiction
  case h_1 hq =>
    obtain ⟨state', hw, rfl⟩ := Option.map_eq_some_iff.mp hs
    have hlt := lt_of_getElem? hq
    cases (h.invAll hq).stepStarter_cases hw
    case launch j pc h₁ h₂ h₃ h₄ h₅ h₆ h₇ =>
      have h' := (h.moveAll (r := [.starter q, .child q j]) hq (a := .starter) hw (by rw [h₁, h₂]; rfl) h₅ h₇
        fun n => by
          obtain rfl | rfl := h₄ <;>
            simp only [h₃, CollectAllAwaiter.ChildPc.pending, Bool.false_eq_true, if_false, if_true,
              List.map_cons, List.map_nil, List.sum_cons, List.sum_nil] <;>
            omega).put (p := .running t)
      obtain rfl | rfl := h₄ <;> simp only [h₁, h₅, Function.update_self]
      case inl => exact h'.schedule
      case inr => exact h'.start (by simpa [Config.put, Config.set] using hlt)
    case resume h₁ h₂ h₃ h₄ h₅ h₆ =>
      simp only [h₁]
      refine put (h.setAll hq (a := .starter) hw fun n => ?_)
      simp only [Cell.ahead, Cell.next, Cell.needs, h₁, h₂, h₃, h₄, h₅, CollectAllAwaiter.StarterPc.pending,
        List.isEmpty_nil, List.isEmpty_cons, Bool.false_eq_true, if_false, if_true, Option.elim_none,
        Option.elim_some, List.map_cons, List.map_nil, List.sum_cons, List.sum_nil]
      omega
    case other h₁ h₂ h₃ h₄ h₅ h₆ =>
      have hp := CollectAllAwaiter.StarterPc.pending_of_ne h₃
      split
      case h_1 hl => exact absurd hl (h₁ _)
      case h_2 hl => exact absurd hl (h₂ _)
      case h_3 hd _ _ =>
        have hp' : state'.starter.pending = false := by rw [hd]; rfl
        refine h.setAll hq (a := .starter) hw fun n => ?_
        simp only [Cell.ahead, Cell.next, Cell.needs, h₄, h₅, hp, hp', Bool.false_eq_true, if_false, if_true,
          List.map_cons, List.map_nil, List.sum_cons, List.sum_nil]
        omega
      case h_4 hd =>
        have hp' := CollectAllAwaiter.StarterPc.pending_of_ne hd
        refine put (h.setAll hq (a := .starter) hw fun n => ?_)
        simp only [Cell.ahead, Cell.next, Cell.needs, h₄, h₅, hp, hp']
  case h_2 hq =>
    obtain ⟨state', hw, rfl⟩ := Option.map_eq_some_iff.mp hs
    have hlt := lt_of_getElem? hq
    cases (h.invAny hq).stepStarter_cases hw
    case start j h₁ h₂ h₃ h₄ h₅ h₆ =>
      have h' := (h.moveAny (r := [.starter q, .child q j]) hq (a := .starter) hw (by rw [h₁, h₂]; rfl) h₄ h₆
        fun n => by
          simp only [h₃, CollectAnyAwaiter.ChildPc.pending, Bool.false_eq_true, if_false, if_true,
            List.map_cons, List.map_nil, List.sum_cons, List.sum_nil]
          omega).put (p := .running t)
      simp only [h₁]
      exact h'.start (by simpa [Config.put, Config.set] using hlt)
    case other h₁ h₂ h₃ h₄ h₅ =>
      have hp := CollectAnyAwaiter.StarterPc.pending_of_ne h₂
      split
      case h_1 hl => exact absurd hl (h₁ _)
      case h_2 hd _ =>
        have hp' : state'.starter.pending = false := by rw [hd]; rfl
        refine h.setAny hq (a := .starter) hw fun n => ?_
        simp only [Cell.ahead, Cell.next, Cell.needs, h₃, h₄, hp, hp', Bool.false_eq_true, if_false, if_true,
          List.map_cons, List.map_nil, List.sum_cons, List.sum_nil]
        omega
      case h_3 hd =>
        have hp' := CollectAnyAwaiter.StarterPc.pending_of_ne hd
        refine put (h.setAny hq (a := .starter) hw fun n => ?_)
        simp only [Cell.ahead, Cell.next, Cell.needs, h₃, h₄, hp, hp']

theorem stepChild (h : Holding s₁ [.child q j]) (hs : Setup.stepChild s₁ t q j = some s₂) :
    Holding s₂ [] := by
  simp only [Setup.stepChild] at hs
  split at hs <;> try contradiction
  case h_1 hq =>
    have hlt := lt_of_getElem? hq
    split at hs <;> try contradiction
    case isTrue hj =>
    split at hs
    case h_1 hp =>
      obtain ⟨state', hw, rfl⟩ := Option.map_eq_some_iff.mp hs
      obtain ⟨_, h₂, h₃, _, h₅⟩ := CollectAllAwaiter.Inv.runTask_eq hw
      have h' := h.moveAll (r := [.child q j]) hq (a := .runTask ⟨j, hj⟩) hw (by rw [h₃]) h₂ h₅
        fun n => by rw [hp]; rfl
      exact h'.start (by simpa [Config.set] using hlt)
    case h_2 =>
      obtain ⟨state', hw, rfl⟩ := Option.map_eq_some_iff.mp hs
      obtain ⟨hc, h₁, _⟩ := (h.invAll hq).stepChild_cases hw
      cases hc
      case resume h₂ h₃ h₄ h₅ =>
        simp only [h₂]
        exact put (h.resumeAll (a := .child ⟨j, hj⟩) hq hw (by rw [h₁]) h₃ (by rw [h₂]; rfl) rfl h₄
          (by simp [h₅]))
      case other pc h₂ h₃ h₄ h₅ h₆ =>
        have hpc : state'.child ⟨j, hj⟩ = .finish pc := by rw [h₅, Function.update_self]
        split
        case h_1 hl => exact absurd hl (h₄ _)
        case h_2 hd _ =>
          obtain rfl : pc = .done := by simpa [hpc] using hd
          refine h.moveAll hq (a := .child ⟨j, hj⟩) hw (by rw [h₁]) h₅ h₆ fun n => ?_
          have hp' : CollectAllAwaiter.ChildPc.pending
            (.finish .done : CollectAllAwaiter.ChildPc ε (Option α) Nat) = false := rfl
          simp [h₂, hp']
        case h_3 hd =>
          have hp' : CollectAllAwaiter.ChildPc.pending (.finish pc : CollectAllAwaiter.ChildPc ε (Option α) Nat) := by
            cases pc <;> first | rfl | exact absurd hpc hd
          refine put (h.moveAll hq (a := .child ⟨j, hj⟩) hw (by rw [h₁]) h₅ h₆ fun n => ?_)
          simp [h₂, hp']
  case h_2 hq =>
    have hlt := lt_of_getElem? hq
    split at hs <;> try contradiction
    case isTrue hj =>
    obtain ⟨state', hw, rfl⟩ := Option.map_eq_some_iff.mp hs
    obtain ⟨hc, h₁, _⟩ := (h.invAny hq).stepChild_cases hw
    cases hc
    case resume h₂ h₃ h₄ h₅ =>
      simp only [h₂]
      exact put (h.resumeAny (a := .child ⟨j, hj⟩) hq hw (by rw [h₁]) h₃ (by rw [h₂]; rfl) rfl h₄
        (by simp [h₅]))
    case other pc h₂ h₃ h₄ h₅ h₆ h₇ h₈ =>
      have hpc : state'.child ⟨j, hj⟩ = pc := by rw [h₇, Function.update_self]
      split
      case h_1 hl => exact absurd hl h₄
      case h_2 hd _ =>
        obtain rfl : pc = .finished := by rw [← hpc, hd]
        refine h.moveAny hq (a := .child ⟨j, hj⟩) hw (by rw [h₁]) h₇ h₈ fun n => ?_
        have hp' : CollectAnyAwaiter.ChildPc.pending (.finished : CollectAnyAwaiter.ChildPc ε (Option α)) = false :=
          rfl
        simp [h₂, hp']
      case h_3 hd =>
        have hp' : pc.pending := by
          cases pc <;> first | rfl | exact absurd rfl h₅ | exact absurd hpc hd
        refine put (h.moveAny hq (a := .child ⟨j, hj⟩) hw (by rw [h₁]) h₇ h₈ fun n => ?_)
        simp [h₂, hp']

theorem stepNode (h : Holding s₁ [a]) (hf : s₁.fault = none) (hs : m.stepNode s₁ t env a = some s₂) :
    Holding s₂ [] := by
  cases a <;> simp only [Setup.stepNode] at hs
  case starter => exact h.stepStarter hs
  case child   => exact h.stepChild hs
  case coro c  =>
    simp only [Setup.stepCoro] at hs
    split at hs <;> try contradiction
    case h_1 hc => exact h.stepLazy hf hc hs
    case h_2 hc =>
      split at hs <;> cases hs
      case isFalse hr =>
        rw [Bool.not_eq_true] at hr
        exact h.stepVia (hr ▸ hc)
    case h_3 hc => exact h.stepLaunch hf hc hs

end Holding

-- In every state, each piece of code that is still to be run has exactly one holder.
structure Inv (s : Config ε α ξ θ χ) : Prop where
  held   : ∀ n, s.holds n = s.needs n
  linked : ∀ c x, s.cells[c]? = some x → s.Linked c x

variable {m : Setup ε α ξ θ χ}

namespace Inv

theorem holding (i : Inv s) : Holding s [] :=
  ⟨fun _ n => by simpa using i.held n, i.linked⟩

theorem of_holding (h : Holding s []) (hf : s.fault = none) : Inv s :=
  ⟨fun n => by simpa using h.owes hf n, h.linked⟩

theorem init : Inv (m.init : Config ε α ξ θ χ) where
  held n := by
    have hl : (Frame.new m.program m.executor_ none none : Frame ε α ξ θ m.kind).alive = false := rfl
    have hw : m.init.needs n = (Node.coro 0).one n := by
      obtain h | h | h : n.id = 0 ∨ n.id = 1 ∨ 2 ≤ n.id := by omega
      · simp [Config.needs, Setup.init, h, Cell.needs]
      · simp only [Config.needs, Setup.init, h, List.getElem?_cons_succ, List.getElem?_cons_zero,
          Option.elim_some, needs_not_alive hl]
        exact (if_neg (by rintro rfl; contradiction)).symm
      · simp only [Config.needs, Setup.init]
        rw [List.getElem?_eq_none (by simpa using h)]
        exact (if_neg (by rintro rfl; contradiction)).symm
    rw [hw]
    simp [Config.holds, Setup.init, Cell.next, hl, Node.one, List.countP_cons]
  linked c x hx := by
    match c, hx with
    | 0, hx =>
      cases hx
      exact ⟨rfl, by simp [Setup.init], rfl, nofun⟩
    | 1, hx =>
      cases hx
      exact ⟨fun _ => rfl, nofun, nofun⟩

theorem step (i : Inv s₁) (h : m.system.step s₁ a = some s₂) : Inv s₂ := by
  simp only [Setup.system] at h
  split at h
  case isFalse => contradiction
  case isTrue hf =>
    cases a <;> simp only [Setup.step] at h
    case run j t =>
      split at h
      case h_1 ht =>
        split at h <;> cases h
        exact of_holding (i.holding.take ht).put hf
      case h_2 ht =>
        cases h
        exact of_holding (i.holding.take ht).put hf
      case h_3 => contradiction
    case step j env =>
      split at h
      case h_2 => contradiction
      case h_1 ht =>
        obtain ⟨s, hs, rfl⟩ := Option.map_eq_some_iff.mp h
        have := (i.holding.take ht).stepNode hf hs
        split
        case h_1 hn => exact of_holding this hn
        case h_2 => exact ⟨i.held, i.linked⟩

theorem reachable (h : m.system.Reachable s) : Inv s :=
  h.invariant .init .step

end Inv

-- What is waited for is run on the thread.
def Setup.Runs (m : Setup ε α ξ θ χ) (t : θ) : Place ξ θ χ → Prop
  | .running _                => False
  | .queued executor context  => m.admits executor context t
  | .external                 => True

-- A step of the system moves code to a thread, or runs it there, which may fail.
inductive SystemStep (m : Setup ε α ξ θ χ) (s₁ : Config ε α ξ θ χ) : Action ε α θ → Config ε α ξ θ χ → Prop
  | run (ht : s₁.tokens[i]? = some ⟨p, a⟩) (hp : m.Runs t p) :
    SystemStep m s₁ (.run i t) ((s₁.take i).put (.running t) a)
  | step (ht : s₁.tokens[i]? = some ⟨.running t, a⟩) (hs : m.stepNode (s₁.take i) t env a = some s')
    (hf : s'.fault = none) : SystemStep m s₁ (.step i env) s'
  | fail (ht : s₁.tokens[i]? = some ⟨.running t, a⟩) (hs : m.stepNode (s₁.take i) t env a = some s')
    (hf : s'.fault = some fault) : SystemStep m s₁ (.step i env) (s₁.fail fault)

theorem Setup.step_cases (h : m.system.step s₁ a = some s₂) : s₁.fault = none ∧ SystemStep m s₁ a s₂ := by
  simp only [Setup.system] at h
  split at h <;> try contradiction
  case isTrue hf =>
  refine ⟨hf, ?_⟩
  cases a <;> simp only [Setup.step] at h
  case run i t =>
    split at h <;> try contradiction
    case h_1 ht =>
      split at h <;> cases h
      case isTrue hp => exact .run ht hp
    case h_2 ht =>
      cases h
      exact .run ht trivial
  case step i env =>
    split at h <;> try contradiction
    case h_1 ht =>
    obtain ⟨s, hs, rfl⟩ := Option.map_eq_some_iff.mp h
    split
    case h_1 hn => exact .step ht hs hn
    case h_2 hn => exact .fail ht hs hn

end Lazy
end AsyncSimple
