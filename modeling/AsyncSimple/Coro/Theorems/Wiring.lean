import AsyncSimple.Coro.Theorems.Lazy

open Transition

namespace AsyncSimple
namespace Lazy

variable {ε α ξ θ χ : Type}

namespace Stage

-- The awaiter of a vector of children that a coroutine waits for.
def awaiter : Stage ε α ξ k → Option Nat
  | collectAll q _ | collectAny q _ => some q
  | _                               => none

-- The cell is the awaiter that the coroutine gets its results from, which it has not done yet.
def Serves : Stage ε α ξ k → Cell ε α ξ θ χ → Prop
  | collectAll _ _, .collectAll _ _ _ _     => True
  | collectAny _ _, .collectAny _ _ _ state => state.received = none
  | _,              _                       => False

end Stage

namespace Cell

def isLazy : Cell ε α ξ θ χ → Bool
  | lazy _ => true
  | _      => false

-- The continuation of an awaiter, and the callback of a coroutine that `Start` has launched.

def waiter : Cell ε α ξ θ χ → Option Nat
  | collectAll _ _ setup _ => some setup.continuation
  | collectAny _ _ setup _ => some setup.continuation
  | _                      => none

def callback : Cell ε α ξ θ χ → Option Callback
  | launch _ _ callback _ => some callback
  | _                     => none

-- Child `j` of a vector has been started, and has no result yet.
def Runs (j : Nat) : Cell ε α ξ θ χ → Prop
  | collectAll (n := n) _ _ _ state => ∃ h : j < n, state.child ⟨j, h⟩ = .running
  | collectAny (n := n) _ _ _ state => ∃ h : j < n, state.child ⟨j, h⟩ = .running
  | _                               => False

end Cell

namespace Config

def IsLazy (s : Config ε α ξ θ χ) (c : Nat) : Prop :=
  ∃ x, s.cells[c]? = some x ∧ x.isLazy

def Runs (s : Config ε α ξ θ χ) (q j : Nat) : Prop :=
  ∃ x, s.cells[q]? = some x ∧ x.Runs j

-- The coroutine `l` has been launched to call the callback of child `j`.
def Launches (s : Config ε α ξ θ χ) (l q j : Nat) : Prop :=
  ∃ x, s.cells[l]? = some x ∧ x.callback = some (.child q j)

def Serves (s : Config ε α ξ θ χ) (stage : Stage ε α ξ k) (q c : Nat) : Prop :=
  ∃ x h, s.cells[q]? = some x ∧ stage.Serves x ∧ x.waiter = some h ∧ (h = c ∨ s.target h = some c)

-- What a cell needs in order to go on: the result of a coroutine that is at its end is not empty.
def Own (s : Config ε α ξ θ χ) (c : Nat) : Cell ε α ξ θ χ → Prop
  | .lazy f             =>
    (f.stage.isFinal → f.result.tryResult.isSome) ∧ (∀ q, f.stage.awaiter = some q → s.Serves f.stage q c)
  | .launch _ child _ _ => s.IsLazy child
  | _                   => True

end Config

-- A child of a vector runs if and only if the coroutine that has been launched for it is still there.
structure Wired (s : Config ε α ξ θ χ) : Prop where
  own  : ∀ c x, s.cells[c]? = some x → s.Own c x
  runs : ∀ q j, s.Runs q j ↔ ∃ l, s.Launches l q j

variable {s s₁ s₂ : Config ε α ξ θ χ} {x y : Cell ε α ξ θ χ}

-- How an update of a cell, and a new cell, change what the others need.

theorem cell_set (h : s.cells[c]? = some x) (y : Cell ε α ξ θ χ) (d : Nat) :
    (s.set c y).cells[d]? = if d = c then some y else s.cells[d]? := by
  by_cases hd : d = c
  · subst hd
    simp [Config.set, List.getElem?_set_self (Holding.lt_of_getElem? h)]
  · simp [Config.set, List.getElem?_set_ne (Ne.symm hd), hd]

theorem cell_add (y : Cell ε α ξ θ χ) (d : Nat) :
    (s.add y).cells[d]? = if d = s.cells.length then some y else s.cells[d]? := by
  by_cases hd : d = s.cells.length
  · simp [Config.add, hd]
  · simp only [Config.add, List.getElem?_append, hd, if_false]
    split
    case isTrue  => rfl
    case isFalse =>
      rw [List.getElem?_eq_none (by simp; omega), List.getElem?_eq_none (by omega)]

theorem runs_set (h : s.cells[c]? = some x) (y : Cell ε α ξ θ χ) :
    (s.set c y).Runs q j ↔ if q = c then y.Runs j else s.Runs q j := by
  simp only [Config.Runs, cell_set h]
  split <;> simp

theorem launches_set (h : s.cells[c]? = some x) (y : Cell ε α ξ θ χ) :
    (s.set c y).Launches l q j ↔ if l = c then y.callback = some (.child q j) else s.Launches l q j := by
  simp only [Config.Launches, cell_set h]
  split <;> simp

-- A cell that takes the place of another one, and serves the same coroutine.
structure Cell.Kept (x y : Cell ε α ξ θ χ) : Prop where
  target : y.target = x.target
  waiter : y.waiter = x.waiter
  isLazy : x.isLazy → y.isLazy
  serves : ∀ {k : Kind} (stage : Stage ε α ξ k), stage.Serves x → stage.Serves y

theorem Config.Serves.set {stage : Stage ε α ξ k} (hv : s.Serves stage q d) (hx : s.cells[c]? = some x)
    (hk : x.Kept y) : (s.set c y).Serves stage q d := by
  obtain ⟨z, h, hz, hs, hw, ht⟩ := hv
  have ht := ht.imp_right (target_set hx hk.target h).trans
  by_cases hq : q = c
  · subst hq
    cases hz.symm.trans hx
    exact ⟨y, h, by simp [cell_set hx], hk.serves stage hs, hk.waiter.trans hw, ht⟩
  · exact ⟨z, h, by simp [cell_set hx, hq, hz], hs, hw, ht⟩

theorem Config.Own.mono (h : s₁.Own c x)
    (hv : ∀ {k : Kind} (f : Frame ε α ξ θ k) q, x = .lazy f → f.stage.awaiter = some q →
      s₁.Serves f.stage q c → s₂.Serves f.stage q c)
    (hl : ∀ d, s₁.IsLazy d → s₂.IsLazy d) : s₂.Own c x := by
  cases x
  case lazy   => exact ⟨h.left, fun q hq => hv _ q rfl hq (h.right q hq)⟩
  case launch => exact hl _ h
  all_goals trivial

theorem Config.IsLazy.set (h : s.IsLazy d) (hx : s.cells[c]? = some x) (hk : x.isLazy → y.isLazy) :
    (s.set c y).IsLazy d := by
  obtain ⟨z, hz, hl⟩ := h
  by_cases hd : d = c
  · subst hd
    cases hz.symm.trans hx
    exact ⟨y, by simp [cell_set hx], hk hl⟩
  · exact ⟨z, by simp [cell_set hx, hd, hz], hl⟩

theorem own_set (w : ∀ d z, s.cells[d]? = some z → s.Own d z) (hx : s.cells[c]? = some x) (hk : x.Kept y)
    (hy : s.Own c y) (d : Nat) (z : Cell ε α ξ θ χ) (hz : (s.set c y).cells[d]? = some z) :
    (s.set c y).Own d z := by
  have hm {z : Cell ε α ξ θ χ} (h : s.Own d z) : (s.set c y).Own d z :=
    h.mono (fun _ _ _ _ hv => hv.set hx hk) fun _ hl => hl.set hx hk.isLazy
  rw [cell_set hx] at hz
  split at hz
  case isTrue hd =>
    cases hz
    exact hm (hd ▸ hy)
  case isFalse => exact hm (w d z hz)

namespace Wired

theorem congr (w : Wired s₁) (h : s₂.cells = s₁.cells) : Wired s₂ := by
  have ht : s₂.target = s₁.target := funext fun v => by rw [Config.target, Config.target, h]
  refine ⟨fun c x hx => (w.own c x (h ▸ hx)).mono (fun _ _ _ _ hv => ?_) fun d hl => ?_, fun q j => ?_⟩
  · simpa only [Config.Serves, h, ht] using hv
  · simpa only [Config.IsLazy, h] using hl
  · simpa only [Config.Runs, Config.Launches, h] using w.runs q j

theorem put (w : Wired s) : Wired (s.put p a) := w.congr rfl

theorem submit (w : Wired s) : Wired (s.submit e context a accept) := by
  cases accept <;> exact w.congr rfl

theorem schedule (w : Wired s) : Wired (s.schedule e a accept) := by
  cases e
  case none => exact w.congr rfl
  case some => exact w.submit

theorem set (w : Wired s) (hx : s.cells[c]? = some x) (hk : x.Kept y) (hr : ∀ j, y.Runs j ↔ x.Runs j)
    (hc : ∀ q j, y.callback = some (.child q j) ↔ x.callback = some (.child q j)) (hy : s.Own c y) : Wired (s.set c y) where
  own  := own_set w.own hx hk hy
  runs q j := by
    have hq : (if q = c then y.Runs j else s.Runs q j) ↔ s.Runs q j := by
      split
      case isTrue h  => simp [h, Config.Runs, hx, hr]
      case isFalse h => rfl
    have hl (l) : (if l = c then y.callback = some (.child q j) else s.Launches l q j) ↔ s.Launches l q j := by
      split
      case isTrue h  => simp [h, Config.Launches, hx, hc]
      case isFalse h => rfl
    rw [runs_set hx, hq, w.runs]
    simp only [launches_set hx, hl]

end Wired

section Add

theorem Config.IsLazy.add (h : s.IsLazy d) : (s.add y).IsLazy d := by
  obtain ⟨x, hx, hl⟩ := h
  exact ⟨x, Holding.getElem?_add hx, hl⟩

theorem Config.Serves.add {stage : Stage ε α ξ k} (h : s.Serves stage q c) : (s.add y).Serves stage q c := by
  obtain ⟨x, h, hx, hs, hw, ht⟩ := h
  exact ⟨x, h, Holding.getElem?_add hx, hs, hw, ht.imp_right fun ht => (target_add (lt_of_target ht)).trans ht⟩

theorem runs_add : (s.add y).Runs q j ↔ if q = s.cells.length then y.Runs j else s.Runs q j := by
  simp only [Config.Runs, cell_add]
  split <;> simp

theorem launches_add :
    (s.add y).Launches l q j ↔ if l = s.cells.length then y.callback = some (.child q j) else s.Launches l q j := by
  simp only [Config.Launches, cell_add]
  split <;> simp

theorem own_add (w : ∀ d z, s.cells[d]? = some z → s.Own d z) (hy : (s.add y).Own s.cells.length y) (d : Nat)
    (z : Cell ε α ξ θ χ) (hz : (s.add y).cells[d]? = some z) : (s.add y).Own d z := by
  rw [cell_add] at hz
  split at hz
  case isTrue hd =>
    cases hz
    exact hd ▸ hy
  case isFalse => exact (w d z hz).mono (fun _ _ _ _ hv => hv.add) fun _ hl => hl.add

theorem not_runs (h : s.cells.length ≤ q) : ¬ s.Runs q j := by
  rintro ⟨x, hx, _⟩
  have := Holding.lt_of_getElem? hx
  omega

theorem not_launches (h : s.cells.length ≤ l) : ¬ s.Launches l q j := by
  rintro ⟨x, hx, _⟩
  have := Holding.lt_of_getElem? hx
  omega

theorem Wired.add (w : Wired s) (hy : (s.add y).Own s.cells.length y) (hr : ∀ j, ¬ y.Runs j)
    (hc : ∀ q j, y.callback ≠ some (.child q j)) : Wired (s.add y) where
  own := own_add w.own hy
  runs q j := by
    have hq : (if q = s.cells.length then y.Runs j else s.Runs q j) ↔ s.Runs q j := by
      split
      case isTrue h  => simp [hr, not_runs h.ge]
      case isFalse h => rfl
    have hl (l) : (if l = s.cells.length then y.callback = some (.child q j) else s.Launches l q j) ↔
        s.Launches l q j := by
      split
      case isTrue h  => simp [hc, not_launches h.ge]
      case isFalse h => rfl
    rw [runs_add, hq, w.runs]
    simp only [launches_add, hl]

theorem own_new {body : Body ε α ξ k} {thread : Option θ} : s.Own c (.lazy (.new body executor_ h thread)) :=
  ⟨by rintro ⟨⟩, by rintro _ ⟨⟩⟩

-- `Start` launches a coroutine for a child that runs from now on.
theorem Wired.start {child : Body ε α ξ k} {t : θ} (w : ∀ d z, s.cells[d]? = some z → s.Own d z)
    (runs : ∀ q' j', s.Runs q' j' ↔ (q' = q ∧ j' = j) ∨ ∃ l, s.Launches l q' j') :
    Wired (s.start t reschedule child executor_ (.child q j)) := by
  have hlen {y : Cell ε α ξ θ χ} : (s.add y).cells.length = s.cells.length + 1 := by simp [Config.add]
  suffices Wired ((s.add (.launch reschedule (s.cells.length + 1) (.child q j) false)).add
    (.lazy (.new child executor_ none none))) from this.put
  refine ⟨fun d z hz => ?_, fun q' j' => ?_⟩
  · rw [cell_add, hlen, cell_add] at hz
    split at hz
    case isTrue =>
      cases hz
      exact own_new
    case isFalse =>
      split at hz
      case isTrue =>
        cases hz
        exact ⟨_, by rw [cell_add, hlen, if_pos rfl], rfl⟩
      case isFalse => exact (w d z hz).mono (fun _ _ _ _ hv => hv.add.add) fun _ hl => hl.add.add
  · have hr : ((s.add (.launch reschedule (s.cells.length + 1) (.child q j) false)).add
        (.lazy (.new child executor_ none none))).Runs q' j' ↔ s.Runs q' j' := by
      simp only [runs_add, hlen, Cell.Runs]
      split
      case isTrue h  => simp [not_runs (show s.cells.length ≤ q' by omega)]
      case isFalse   =>
        split
        case isTrue h => simp [not_runs h.ge]
        case isFalse  => rfl
    simp only [hr, runs, launches_add, hlen, Cell.callback, reduceCtorEq]
    constructor
    case mp =>
      rintro (⟨rfl, rfl⟩ | ⟨l, hl⟩)
      · exact ⟨s.cells.length, by simp⟩
      · have hlt : l < s.cells.length := by
          by_contra hge
          exact not_launches (Nat.le_of_not_lt hge) hl
        exact ⟨l, by rwa [if_neg (by omega), if_neg (by omega)]⟩
    case mpr =>
      rintro ⟨l, hl⟩
      split at hl
      case isTrue => contradiction
      case isFalse =>
        split at hl
        case isTrue  => cases hl; exact .inl ⟨rfl, rfl⟩
        case isFalse => exact .inr ⟨l, hl⟩

end Add

namespace Wired

variable {m : Setup ε α ξ θ χ}

theorem enter {f : Frame ε α ξ θ k} {result : Slot ε α k} {stage : Stage ε α ξ k} (w : Wired s)
    (hc : s.cells[c]? = some (.lazy f)) (hf : stage.isFinal → result.tryResult.isSome)
    (hv : ∀ q, stage.awaiter = some q → s.Serves stage q c) : Wired (s.enter t c { f with result } stage) :=
  w.set hc ⟨rfl, rfl, fun _ => rfl, fun stage h => by cases stage <;> exact h⟩ (fun _ => Iff.rfl) (fun _ _ => Iff.rfl) ⟨hf, hv⟩

theorem move {f : Frame ε α ξ θ k} {stage : Stage ε α ξ k} (w : Wired s) (hc : s.cells[c]? = some (.lazy f))
    (hf : stage.isFinal = false) (ha : stage.awaiter = none) : Wired (s.enter t c f stage) :=
  w.enter hc (by simp [hf]) (by simp [ha])

theorem proceed {f : Frame ε α ξ θ k} (w : Wired s) (hc : s.cells[c]? = some (.lazy f)) :
    Wired (s.proceed t c f body) :=
  (w.move hc rfl rfl).put

theorem finalSuspend {f : Frame ε α ξ θ k} {result : Slot ε α k} (w : Wired s) (hc : s.cells[c]? = some (.lazy f))
    (hr : result.tryResult.isSome) : Wired (s.finalSuspend t c f result) := by
  simp only [Config.finalSuspend]
  split
  case h_1 => exact w.congr rfl
  case h_2 =>
    refine put (w.enter hc ?_ (by simp [Stage.awaiter]))
    exact fun _ => hr

theorem via {executor_ : Option ξ} (w : Wired s) (m : Setup ε α ξ θ χ) : Wired (s.add (m.via executor_ t c)) :=
  w.add trivial (fun _ => id) (by simp [Setup.via, Cell.callback])

theorem addLazy {body : Body ε α ξ k} (w : Wired s) : Wired (s.add (.lazy (.new body executor_ h thread))) :=
  w.add own_new (fun _ => id) (by simp [Cell.callback])

-- The awaiter of a vector gets the coroutine as its continuation, or a `ViaCoroutine` that leads to it.
theorem wrap (w : Wired s) (m : Setup ε α ξ θ χ) (reschedule : Bool) (executor_ : Option ξ) (t : θ)
    (hc : s.cells[c]? = some x) :
    Wired (m.wrap s reschedule executor_ t c).1 ∧ (m.wrap s reschedule executor_ t c).1.cells[c]? = some x ∧
    ((m.wrap s reschedule executor_ t c).2 = c ∨
      (m.wrap s reschedule executor_ t c).1.target (m.wrap s reschedule executor_ t c).2 = some c) := by
  cases reschedule
  case false => exact ⟨w, hc, .inl rfl⟩
  case true  =>
    exact ⟨w.via m, Holding.getElem?_add hc, .inr (by simp [Setup.wrap, Config.target, Config.add, Setup.via, Cell.target])⟩

theorem addCollectAll {children : Fin n → Body ε α ξ k} {setup : CollectAllAwaiter.Setup n Nat ξ} (w : Wired s) :
    Wired (s.add (.collectAll reschedule children setup setup.init)) :=
  w.add trivial (by simp [Cell.Runs, CollectAllAwaiter.Setup.init]) (by simp [Cell.callback])

theorem addCollectAny {children : Fin n → Body ε α ξ k} {setup : CollectAnyAwaiter.Setup n Nat ξ} (w : Wired s) :
    Wired (s.add (.collectAny reschedule children setup setup.init)) :=
  w.add trivial (by simp [Cell.Runs, CollectAnyAwaiter.Setup.init]) (by simp [Cell.callback])

theorem serves_add {stage : Stage ε α ξ k} (hs : stage.Serves y) (hw : y.waiter = some h)
    (ht : h = c ∨ s.target h = some c) : (s.add y).Serves stage s.cells.length c :=
  ⟨y, h, by simp [cell_add], hs, hw, ht.imp_right fun ht => (target_add (lt_of_target ht)).trans ht⟩

theorem exec {f : Frame ε α ξ θ k} (w : Wired s₁) (hc : s₁.cells[c]? = some (.lazy f))
    (hs : m.exec s₁ t c env f body = some s₂) : Wired s₂ := by
  cases body <;> simp only [Setup.exec] at hs
  case coReturn        => cases hs; exact w.finalSuspend hc rfl
  case coReturnVoid    =>
    cases hs
    refine w.finalSuspend hc ?_
    obtain ⟨_, _, result, _, _⟩ := f
    cases result with | void x => cases x <;> rfl
  case throw           =>
    cases hs
    refine w.finalSuspend hc ?_
    obtain ⟨_, _, result, _, _⟩ := f
    cases result <;> rfl
  case currentExecutor => cases hs; exact w.proceed hc
  case yield           => cases hs; exact (w.move hc rfl rfl).schedule
  case schedule        =>
    split at hs <;> cases hs
    case isTrue  => exact w.proceed hc
    case isFalse => exact (w.move hc rfl rfl).submit
  case scheduleAfter   => cases hs; exact (w.move hc rfl rfl).submit
  case await           => cases hs; exact (w.addLazy.move (Holding.getElem?_add hc) rfl rfl).put
  case awaitVia        =>
    cases hs
    exact ((w.via m).addLazy.move (Holding.getElem?_add (Holding.getElem?_add hc)) rfl rfl).schedule
  case awaitExternal   =>
    split at hs
    case h_1 => cases hs; exact w.proceed hc
    case h_2 => cases hs; exact ((w.via m).move (Holding.getElem?_add hc) rfl rfl).put
    case h_3 => split at hs <;> cases hs; exact w.proceed hc
    case h_4 => cases hs; exact w.proceed hc
  case collectAll n para reschedule executors children g =>
    split at hs <;> cases hs
    case isTrue  => exact w.proceed hc
    case isFalse =>
      obtain ⟨w', hc', ht⟩ := w.wrap m reschedule f.executor_ t hc
      exact ((w'.addCollectAll).enter (Holding.getElem?_add hc') (by simp [Stage.isFinal]) fun q hq => by
        cases hq
        exact serves_add trivial rfl ht).put
  case collectAny n kind reschedule executors children g =>
    split at hs <;> cases hs
    case isTrue     => exact w.congr rfl
    case isFalse hn =>
      obtain ⟨w', hc', ht⟩ := w.wrap m reschedule f.executor_ t hc
      exact ((w'.addCollectAny).enter (Holding.getElem?_add hc') (by simp [Stage.isFinal]) fun q hq => by
        cases hq
        exact serves_add rfl rfl ht).put

-- A coroutine that no launched coroutine waits for is destroyed.
theorem destroy {f : Frame ε α ξ θ k} (w : Wired s) (hc : s.cells[c]? = some (.lazy f))
    (hn : ∀ (l : Nat) reschedule callback awaiting,
      s.cells[l]? ≠ some (.launch reschedule c callback awaiting : Cell ε α ξ θ χ)) :
    Wired (s.destroy c) where
  own d z hz := by
    rw [Config.destroy, cell_set hc] at hz
    split at hz
    case isTrue  => cases hz; trivial
    case isFalse =>
      have hv {k : Kind} (stage : Stage ε α ξ k) (q) (hv : s.Serves stage q d) : (s.destroy c).Serves stage q d := by
        obtain ⟨x, h, hx, hs, hw, ht⟩ := hv
        have hq : q ≠ c := by
          rintro rfl
          cases hx.symm.trans hc
          cases stage <;> exact hs
        exact ⟨x, h, by rw [Config.destroy, cell_set hc, if_neg hq, hx], hs, hw,
          ht.imp_right (target_set (y := .destroyed) hc rfl h).trans⟩
      have hd := w.own d z hz
      cases z
      case lazy   => exact ⟨hd.left, fun q hq => hv _ q (hd.right q hq)⟩
      case launch child _ _ =>
        obtain ⟨x, hx, hl⟩ := hd
        have hne : child ≠ c := by
          rintro rfl
          exact hn _ _ _ _ hz
        exact ⟨x, by rw [Config.destroy, cell_set hc, if_neg hne, hx], hl⟩
      all_goals trivial
  runs q j := by
    have hr : (s.destroy c).Runs q j ↔ s.Runs q j := by
      rw [Config.destroy, runs_set hc]
      split
      case isTrue h  => simp [h, Config.Runs, hc, Cell.Runs]
      case isFalse h => rfl
    have hl (l) : (s.destroy c).Launches l q j ↔ s.Launches l q j := by
      rw [Config.destroy, launches_set hc]
      split
      case isTrue h  => simp [h, Config.Launches, hc, Cell.callback]
      case isFalse h => rfl
    simp only [hr, hl, w.runs]

-- The coroutine that is served by an awaiter is determined by the latter.
theorem serves_unique {stage : Stage ε α ξ k} {stage' : Stage ε α ξ k'} (h : s.Serves stage q c)
    (h' : s.Serves stage' q d) (hc : s.target c = none) (hd : s.target d = none) : c = d := by
  obtain ⟨x, p, hx, _, hw, ht⟩ := h
  obtain ⟨x', p', hx', _, hw', ht'⟩ := h'
  cases hx.symm.trans hx'
  obtain rfl := Option.some.inj (hw.symm.trans hw')
  obtain rfl | ht := ht <;> obtain rfl | ht' := ht'
  · rfl
  · simp [hc] at ht'
  · simp [hd] at ht
  · exact Option.some.inj (ht.symm.trans ht')

-- A coroutine gets the result of `CollectAny`, which no other one waits for.
theorem receive {f : Frame ε α ξ θ k} {g : CollectAnyResult ε (Option α) → Body ε α ξ k}
    {children : Fin n → Body ε α ξ k'} {setup : CollectAnyAwaiter.Setup n Nat ξ}
    {state state' : CollectAnyAwaiter.Config n ε (Option α) Nat ξ}
    (w : Wired s) (hc : s.cells[c]? = some (.lazy f)) (hp : f.stage = .collectAny q g)
    (hq : s.cells[q]? = some (.collectAny reschedule children setup state)) (hch : state'.child = state.child) :
    Wired ((s.enter t c f (.running body)).set q (.collectAny reschedule children setup state')) := by
  have hne : q ≠ c := by
    rintro rfl
    simp [hq] at hc
  have hcell (d : Nat) : (s.enter t c f (.running body)).cells[d]? = _ := cell_set hc _ d
  have hq' := (hcell q).trans ((if_neg hne).trans hq)
  have w' : Wired (s.enter t c f (.running body)) := w.move hc rfl rfl
  have ht {k : Kind} {d : Nat} {f : Frame ε α ξ θ k} (hd : s.cells[d]? = some (.lazy f)) : s.target d = none := by
    simp [Config.target, hd, Cell.target]
  refine ⟨fun d z hz => ?_, fun q' j => ?_⟩
  · rw [cell_set hq'] at hz
    split at hz
    case isTrue => cases hz; trivial
    case isFalse hd =>
      refine (w'.own d z hz).mono (fun f' p hf hp' hv => ?_) fun d hl => hl.set hq' id
      subst hf
      have hdc : d ≠ c := by
        rintro rfl
        cases ((hcell d).trans (if_pos rfl)).symm.trans hz
        contradiction
      have hz : s.cells[d]? = some (.lazy f') := ((hcell d).trans (if_neg hdc)).symm.trans hz
      have hpq : p ≠ q := by
        rintro rfl
        have h₁ := (w.own c _ hc).right p (by rw [hp]; rfl)
        exact hdc (serves_unique ((w.own d _ hz).right p hp') h₁ (ht hz) (ht hc))
      obtain ⟨x, h, hx, hs, hw, htd⟩ := hv
      exact ⟨x, h, (cell_set hq' _ p).trans ((if_neg hpq).trans hx), hs, hw,
        htd.imp_right (target_set (y := .collectAny reschedule children setup state') hq' rfl h).trans⟩
  · have hr : ((s.enter t c f (.running body)).set q (.collectAny reschedule children setup state')).Runs q' j ↔
        (s.enter t c f (.running body)).Runs q' j := by
      rw [runs_set hq']
      split
      case isTrue h  => simp [h, Config.Runs, hq', Cell.Runs, hch]
      case isFalse h => rfl
    have hl (l) : ((s.enter t c f (.running body)).set q (.collectAny reschedule children setup state')).Launches l q' j ↔
        (s.enter t c f (.running body)).Launches l q' j := by
      rw [launches_set hq']
      split
      case isTrue h  => simp [h, Config.Launches, hq', Cell.callback]
      case isFalse h => rfl
    simp only [hr, hl, w'.runs]

theorem stepLazy {f : Frame ε α ξ θ k} (w : Wired s₁) (h : Holding s₁ [.coro c]) (hf : s₁.fault = none)
    (hc : s₁.cells[c]? = some (.lazy f)) (hs : m.stepLazy s₁ t c env f = some s₂) : Wired s₂ := by
  cases hp : f.stage <;> simp only [Setup.stepLazy, hp] at hs
  case initial   => cases hs; exact w.proceed hc
  case running   => exact w.exec hc hs
  case suspended => cases hs; exact w.proceed hc
  case external  => cases hs; exact w.proceed hc
  case final     => contradiction
  case awaiting child g =>
    split at hs <;> cases hs
    case h_2 => exact w.congr rfl
    case h_1 r hr =>
      simp only [Config.result] at hr
      split at hr
      case h_2 => contradiction
      case h_1 f' hf' =>
        have hch : (Cell.lazy f : Cell ε α ξ θ χ).child = some child := by simp [Cell.child, Stage.child, hp]
        obtain ⟨⟨p, hcont, _⟩, _⟩ := h.awaits_child hc hch
        have hne : child ≠ c := by
          rintro rfl
          cases hf'.symm.trans hc
          simpa [h.alive hf hc] using h.final hf (h.awaits_child hc hch).left hf'
        have hf' : (s₁.proceed t c f (g r)).cells[child]? = some (.lazy f') := (cell_set hc _ _).trans (by rw [if_neg hne, hf'])
        refine (w.proceed hc).destroy hf' fun l reschedule callback awaiting hl => ?_
        have hlc : l ≠ c := by
          rintro rfl
          have := hl.symm.trans ((cell_set hc _ _).trans (if_pos rfl))
          simp at this
        have hl : s₁.cells[l]? = some (.launch reschedule child callback awaiting) :=
          ((cell_set hc _ _).trans (if_neg hlc)).symm.trans hl
        cases awaiting
        case false => simpa [hcont] using (h.linked l _ hl).2.2.1
        case true  => exact h.child_ne hc hch hl hlc rfl
  case collectAll =>
    split at hs <;> cases hs
    exact w.proceed hc
  case collectAny awaiter g =>
    split at hs
    case h_2 => contradiction
    case h_1 hq =>
      split at hs
      case h_1 => cases hs; exact w.congr rfl
      case h_2 state state' hw =>
        obtain ⟨r, _, rfl⟩ := Option.map_eq_some_iff.mp hs
        exact ((w.receive hc hp hq (CollectAnyAwaiter.Inv.awaitResume_eq hw).right.left).congr
          (List.set_comm _ _ (by rintro rfl; simp [hq] at hc)))

theorem stepVia {m : Setup ε α ξ θ χ} (w : Wired s) (hc : s.cells[c]? = some (.via context continuation false)) :
    Wired (m.stepVia (s.set c (.via context continuation true)) t env context continuation) := by
  have h₁ : Wired (s.set c (.via context continuation true)) :=
    w.set hc ⟨rfl, rfl, nofun, fun stage h => by cases stage <;> exact h⟩ (fun _ => Iff.rfl) (fun _ _ => Iff.rfl) trivial
  simp only [Setup.stepVia]
  split
  case h_1 => exact h₁.put
  case h_2 =>
    split
    case isTrue  => exact h₁.put
    case isFalse => exact h₁.submit

-- The awaiters of vectors of children take their steps.

section Collect

theorem kept_collectAll {children : Fin n → Body ε α ξ k} {setup : CollectAllAwaiter.Setup n Nat ξ}
    (state state' : CollectAllAwaiter.Config n ε (Option α) Nat ξ) :
    Cell.Kept (.collectAll reschedule children setup state : Cell ε α ξ θ χ)
      (.collectAll reschedule children setup state') :=
  ⟨rfl, rfl, nofun, fun stage h => by cases stage <;> exact h⟩

theorem kept_collectAny {children : Fin n → Body ε α ξ k} {setup : CollectAnyAwaiter.Setup n Nat ξ}
    {state state' : CollectAnyAwaiter.Config n ε (Option α) Nat ξ} (h : state'.received = state.received) :
    Cell.Kept (.collectAny reschedule children setup state : Cell ε α ξ θ χ)
      (.collectAny reschedule children setup state') :=
  ⟨rfl, rfl, nofun, fun stage hs => by
    cases stage
    case collectAny => exact h.trans hs
    all_goals exact hs⟩

theorem exists_update {child : Fin n → β} {j : Fin n} {b r : β} (i : Nat) :
    (∃ h : i < n, Function.update child j b ⟨i, h⟩ = r) ↔
    if i = j then b = r else ∃ h : i < n, child ⟨i, h⟩ = r := by
  split
  case isTrue h =>
    subst h
    simp
  case isFalse h =>
    have hne (hi : i < n) : (⟨i, hi⟩ : Fin n) ≠ j := fun he => h (congrArg Fin.val he)
    simp [Function.update_of_ne (hne _)]

-- A child is started.
theorem begin {body : Body ε α ξ k} {t : θ} (w : Wired s) (hq : s.cells[q]? = some x) (hk : x.Kept y)
    (ho : s.Own q y) (hx : x.callback = none) (hy : y.callback = none)
    (hr : ∀ i, y.Runs i ↔ if i = j then True else x.Runs i) :
    Wired ((s.set q y).start t reschedule body executor_ (.child q j)) := by
  refine .start (own_set w.own hq hk ho) fun q' j' => ?_
  have hl (l) : (s.set q y).Launches l q' j' ↔ s.Launches l q' j' := by
    rw [launches_set hq]
    split
    case isTrue h  => simp [h, Config.Launches, hq, hx, hy]
    case isFalse h => rfl
  simp only [runs_set hq, hl, ← w.runs, hr]
  by_cases hq' : q' = q
  · by_cases hj : j' = j <;> simp [hq', hj, Config.Runs, hq]
  · simp [hq']

-- A coroutine that `Start` has launched is left.
theorem leave (own : ∀ d z, s.cells[d]? = some z → s.Own d z)
    (hl : s.cells[l]? = some (.launch reschedule child callback awaiting))
    (runs : ∀ q j, s.Runs q j ↔ ∃ l', l' ≠ l ∧ s.Launches l' q j) : Wired (s.destroy l) where
  own := own_set own hl ⟨rfl, rfl, nofun, fun stage h => by cases stage <;> exact h⟩ trivial
  runs q j := by
    have hr : (s.destroy l).Runs q j ↔ s.Runs q j := by
      rw [Config.destroy, runs_set hl]
      split
      case isTrue h  => simp [h, Config.Runs, hl, Cell.Runs]
      case isFalse h => rfl
    rw [hr, runs]
    refine exists_congr fun l' => ?_
    rw [Config.destroy, launches_set hl]
    split
    case isTrue h  => simp [h, Cell.callback]
    case isFalse h => simp [h]

-- The callback of a child gets its result.
theorem complete (w : Wired s) (hq : s.cells[q]? = some x) (hk : x.Kept y) (ho : s.Own q y)
    (hx : x.callback = none) (hy : y.callback = none) (hr : ∀ i, y.Runs i ↔ if i = j then False else x.Runs i)
    (hl : s.cells[l]? = some (.launch reschedule child (.child q j) awaiting))
    (hu : ∀ l', s.Launches l' q j → l' = l) : Wired ((s.set q y).destroy l) := by
  have hlq : l ≠ q := by
    rintro rfl
    cases hl.symm.trans hq
    contradiction
  refine leave (own_set w.own hq hk ho) ((cell_set hq y l).trans ((if_neg hlq).trans hl)) fun q' j' => ?_
  have hl' (l') : (s.set q y).Launches l' q' j' ↔ s.Launches l' q' j' := by
    rw [launches_set hq]
    split
    case isTrue h  => simp [h, Config.Launches, hq, hx, hy]
    case isFalse h => rfl
  have hl : s.Launches l q j := ⟨_, hl, rfl⟩
  simp only [hl', runs_set hq, hr]
  constructor
  case mp =>
    intro h
    have hrun : s.Runs q' j' ∧ ¬ (q' = q ∧ j' = j) := by
      by_cases hq' : q' = q
      · by_cases hj : j' = j <;> simp_all [Config.Runs]
      · simp_all
    obtain ⟨l', h'⟩ := (w.runs q' j').mp hrun.left
    refine ⟨l', ?_, h'⟩
    rintro rfl
    obtain ⟨x, hx, h₁⟩ := h'
    obtain ⟨x', hx', h₂⟩ := hl
    cases hx.symm.trans hx'
    exact hrun.right (by simpa [h₁] using h₂)
  case mpr =>
    rintro ⟨l', hne, h'⟩
    have hrun := (w.runs q' j').mpr ⟨l', h'⟩
    by_cases hq' : q' = q
    · subst hq'
      have hj : j' ≠ j := by
        rintro rfl
        exact hne (hu l' h')
      simpa [Config.Runs, hq, hj] using hrun
    · simpa [hq'] using hrun

-- A step in which no child is started, and none gets its result.

theorem moveAll {children : Fin n → Body ε α ξ k} {setup : CollectAllAwaiter.Setup n Nat ξ}
    {state state' : CollectAllAwaiter.Config n ε (Option α) Nat ξ} (w : Wired s)
    (hq : s.cells[q]? = some (.collectAll reschedule children setup state))
    (hr : ∀ i, state'.child i = .running ↔ state.child i = .running) :
    Wired (s.set q (.collectAll reschedule children setup state')) :=
  w.set hq (kept_collectAll ..) (by simp [Cell.Runs, hr]) (by simp [Cell.callback]) trivial

theorem moveAny {children : Fin n → Body ε α ξ k} {setup : CollectAnyAwaiter.Setup n Nat ξ}
    {state state' : CollectAnyAwaiter.Config n ε (Option α) Nat ξ} (w : Wired s)
    (hq : s.cells[q]? = some (.collectAny reschedule children setup state)) (hs : state'.received = state.received)
    (hr : ∀ i, state'.child i = .running ↔ state.child i = .running) :
    Wired (s.set q (.collectAny reschedule children setup state')) :=
  w.set hq (kept_collectAny hs) (by simp [Cell.Runs, hr]) (by simp [Cell.callback]) trivial

theorem update_iff {child child' : Fin n → β} {b r : β} (h : child' = Function.update child j b) (hb : b ≠ r)
    (hj : child j ≠ r) (i : Fin n) : child' i = r ↔ child i = r := by
  subst h
  by_cases hi : i = j
  · subst hi
    simp [hb, hj]
  · rw [Function.update_of_ne hi]

theorem stepStarter (w : Wired s₁) (h : Holding s₁ [.starter q]) (hs : Setup.stepStarter s₁ t q env = some s₂) :
    Wired s₂ := by
  simp only [Setup.stepStarter] at hs
  split at hs <;> try contradiction
  case h_1 hq =>
    obtain ⟨state', hw, rfl⟩ := Option.map_eq_some_iff.mp hs
    cases (h.invAll hq).stepStarter_cases hw
    case launch j pc h₁ h₂ h₃ h₄ h₅ h₆ h₇ =>
      obtain rfl | rfl := h₄ <;> simp only [h₁, h₅, Function.update_self]
      case inl => exact (w.moveAll hq (update_iff h₅ (by simp) (by simp [h₃]))).put.schedule
      case inr =>
        refine (w.begin (t := t) hq (kept_collectAll ..) trivial rfl rfl fun i => ?_).congr rfl
        simp only [Cell.Runs, h₅, exists_update]
    case resume h₁ h₂ h₃ h₄ h₅ h₆ =>
      simp only [h₁]
      exact (w.moveAll hq (by simp [h₅])).put
    case other h₁ h₂ h₃ h₄ h₅ h₆ =>
      have : Wired (s₁.set q (.collectAll _ _ _ state')) := w.moveAll hq (by simp [h₄])
      split
      case h_1 hl => exact absurd hl (h₁ _)
      case h_2    => exact this.put
      case h_3    => exact this
      case h_4    => exact this.put
  case h_2 hq =>
    obtain ⟨state', hw, rfl⟩ := Option.map_eq_some_iff.mp hs
    have hk := CollectAnyAwaiter.Inv.received_eq (a := .starter) hw (by simp)
    cases (h.invAny hq).stepStarter_cases hw
    case start j h₁ h₂ h₃ h₄ h₅ h₆ =>
      simp only [h₁]
      refine (w.begin (t := t) hq (kept_collectAny hk) trivial rfl rfl fun i => ?_).congr rfl
      simp only [Cell.Runs, h₄, exists_update]
    case other h₁ h₂ h₃ h₄ h₅ =>
      have := w.moveAny hq hk (by simp [h₃])
      split
      case h_1 hl => exact absurd hl (h₁ _)
      case h_2    => exact this
      case h_3    => exact this.put

theorem stepChild (w : Wired s₁) (h : Holding s₁ [.child q j]) (hs : Setup.stepChild s₁ t q j = some s₂) :
    Wired s₂ := by
  simp only [Setup.stepChild] at hs
  split at hs <;> try contradiction
  case h_1 hq =>
    split at hs <;> try contradiction
    case isTrue hj =>
    split at hs
    case h_1 hp =>
      obtain ⟨state', hw, rfl⟩ := Option.map_eq_some_iff.mp hs
      refine w.begin (t := t) hq (kept_collectAll ..) trivial rfl rfl fun i => ?_
      simp only [Cell.Runs, (CollectAllAwaiter.Inv.runTask_eq hw).2.1, exists_update]
    case h_2 =>
      obtain ⟨state', hw, rfl⟩ := Option.map_eq_some_iff.mp hs
      have : Wired (s₁.set q (.collectAll _ _ _ state')) := w.moveAll hq <| by
        cases ((h.invAll hq).stepChild_cases hw).left
        case resume h₁ h₂ _ _       => exact update_iff h₂ (by simp) (by simp [h₁])
        case other pc _ h₂ _ h₃ _   => exact update_iff h₃ (by simp) h₂
      split
      case h_1 => exact this.put
      case h_2 => exact this
      case h_3 => exact this.put
  case h_2 hq =>
    split at hs <;> try contradiction
    case isTrue hj =>
    obtain ⟨state', hw, rfl⟩ := Option.map_eq_some_iff.mp hs
    have hk := CollectAnyAwaiter.Inv.received_eq (a := .child ⟨j, hj⟩) hw (by simp)
    have : Wired (s₁.set q (.collectAny _ _ _ state')) := w.moveAny hq hk <| by
      cases ((h.invAny hq).stepChild_cases hw).left
      case resume h₁ h₂ _ _             => exact update_iff h₂ (by simp) (by simp [h₁])
      case other pc _ h₂ _ _ h₃ h₄ _    => exact update_iff h₄ h₃ h₂
    split
    case h_1 => exact this.put
    case h_2 => exact this
    case h_3 => exact this.put

end Collect

-- The children of a vector are launched once each.

theorem needs_child_le (s : Config ε α ξ θ χ) (q j : Nat) : s.needs (.child q j) ≤ 1 := by
  have h₁ : (Node.coro q).one (.child q j) = 0 := rfl
  have h₂ : (Node.starter q).one (.child q j) = 0 := rfl
  have hsum {n : Nat} (p : Fin n → Bool) :
      ∑ i, (if p i then (Node.child q i).one (.child q j) else 0) ≤ 1 := calc
    _ ≤ ∑ i : Fin n, if i.val = j then 1 else 0 := Finset.sum_le_sum fun i _ => by
      by_cases hi : i.val = j
      · simp only [hi, if_true, one_self]
        split <;> omega
      · have : (Node.child q i).one (.child q j) = 0 := if_neg (by simpa using hi)
        simp [this]
    _ = (Finset.univ.filter fun i : Fin n => i.val = j).card := by simp
    _ ≤ 1 := Finset.card_le_one.mpr fun a ha b hb => by
      simp only [Finset.mem_filter, Finset.mem_univ, true_and] at ha hb
      exact Fin.ext (ha.trans hb.symm)
  simp only [Config.needs, Node.id]
  cases s.cells[q]?
  case none   => exact Nat.zero_le _
  case some x =>
    cases x <;> simp only [Option.elim_some, Cell.needs, h₁, h₂, ite_self, Nat.zero_add, Nat.zero_le]
    case collectAll => exact hsum _
    case collectAny => exact hsum _

theorem next_unique {c d : Nat} (h : Holding s l) (hf : s.fault = none) (hc : s.cells[c]? = some x)
    (hd : s.cells[d]? = some y) (hx : x.next = some (.child q j)) (hy : y.next = some (.child q j)) : c = d := by
  by_contra hne
  have h₁ := h.owes hf (.child q j)
  have h₂ := needs_child_le s q j
  have h₃ := Count.countP_set (p := (·.next = some (.child q j))) (.destroyed : Cell ε α ξ θ χ) hc
  have h₅ : (Cell.destroyed : Cell ε α ξ θ χ).next ≠ some (.child q j) := nofun
  have h₄ : 0 < (s.cells.set c .destroyed).countP (·.next = some (.child q j)) :=
    List.countP_pos_iff.mpr ⟨y, List.mem_of_getElem? ((List.getElem?_set_ne hne).trans hd), by simpa using hy⟩
  simp only [hx, h₅, decide_true, if_true, decide_false, Bool.false_eq_true, if_false] at h₃
  simp only [Config.holds] at h₁
  omega

theorem launches_unique (h : Holding s l) (hf : s.fault = none) (h₁ : s.Launches c q j) (h₂ : s.Launches d q j) : c = d := by
  obtain ⟨x, hx, h₁⟩ := h₁
  obtain ⟨y, hy, h₂⟩ := h₂
  cases x <;> simp only [Cell.callback, reduceCtorEq, Option.some.injEq] at h₁
  cases y <;> simp only [Cell.callback, reduceCtorEq, Option.some.injEq] at h₂
  subst h₁ h₂
  exact next_unique h hf hx hy rfl rfl

-- The child of a coroutine that has been launched is left with it.
theorem abandon {f : Frame ε α ξ θ k} {cell : Cell ε α ξ θ χ} (w : Wired (s.destroy c)) (hc : s.cells[c]? = some cell)
    (hch : s.cells[child]? = some (.lazy f)) (hcell : cell.isLazy = false)
    (hl : ∀ (l : Nat) reschedule callback awaiting,
      s.cells[l]? = some (.launch reschedule child callback awaiting : Cell ε α ξ θ χ) → l = c) :
    Wired ((s.destroy c).destroy child) := by
  have hd (d : Nat) : (s.destroy c).cells[d]? = _ := cell_set hc _ d
  have hne : child ≠ c := by
    rintro rfl
    cases hc.symm.trans hch
    contradiction
  refine w.destroy ((hd child).trans ((if_neg hne).trans hch)) fun l reschedule callback awaiting h => ?_
  rw [hd] at h
  split at h
  case isTrue     => cases h
  case isFalse hn => exact hn (hl _ _ _ _ h)

theorem stepLaunch (w : Wired s₁) (h : Holding s₁ [.coro c]) (hf : s₁.fault = none)
    (hc : s₁.cells[c]? = some (.launch reschedule child callback awaiting))
    (hs : Setup.stepLaunch s₁ t c env reschedule child callback awaiting = some s₂) : Wired s₂ := by
  cases awaiting
  case false =>
    simp only [Setup.stepLaunch, Bool.false_eq_true, if_false] at hs
    split at hs
    case h_2 => contradiction
    case h_1 f hch =>
      have hne : child ≠ c := by
        rintro rfl
        simp [hc] at hch
      have w₁ : Wired (s₁.set c (.launch reschedule child callback true)) :=
        w.set hc ⟨rfl, rfl, by rintro ⟨⟩, fun stage h => by cases stage <;> exact h⟩ (fun _ => Iff.rfl) (fun _ _ => Iff.rfl)
          (show s₁.IsLazy child from w.own c _ hc)
      have hch₁ := (cell_set hc (.launch reschedule child callback true) child).trans ((if_neg hne).trans hch)
      have w₂ (thread : Option θ) : Wired ((s₁.set c (.launch reschedule child callback true)).set child
          (.lazy { f with continuation_ := some c, thread })) :=
        w₁.set hch₁ ⟨rfl, rfl, fun _ => rfl, fun stage h => by cases stage <;> exact h⟩ (fun _ => Iff.rfl)
          (fun _ _ => Iff.rfl) ⟨(w₁.own child _ hch₁).left, (w₁.own child _ hch₁).right⟩
      split at hs <;> cases hs
      case isTrue  => exact (w₂ f.thread).schedule
      case isFalse => exact (w₂ (some t)).put
  case true =>
    simp only [Setup.stepLaunch, if_true] at hs
    split at hs <;> try contradiction
    case h_2 => cases hs; exact w.congr rfl
    case h_1 r hr =>
      obtain ⟨s, hcb, rfl⟩ := Option.map_eq_some_iff.mp hs
      simp only [Config.result] at hr
      split at hr <;> try contradiction
      case h_1 f hch =>
      -- The number of a child that has been launched is the next one after that of its launch.
      have hchild {l : Nat} {reschedule : Bool} {callback : Callback} {awaiting : Bool}
          (hl : s₁.cells[l]? = some (.launch reschedule child callback awaiting)) : l = c := by
        have h₁ := (h.linked l _ hl).1
        have h₂ := (h.linked c _ hc).1
        omega
      cases callback
      case caller =>
        cases hcb
        have hw : Wired (s₁.destroy c) := leave w.own hc fun q j => by
          rw [w.runs]
          refine exists_congr fun l => ⟨fun hl => ⟨?_, hl⟩, And.right⟩
          rintro rfl
          obtain ⟨x, hx, hl⟩ := hl
          cases hx.symm.trans hc
          simp [Cell.callback] at hl
        exact (hw.abandon hc hch rfl fun _ _ _ _ => hchild).congr rfl
      case child q j =>
        have hu (l) (hl : s₁.Launches l q j) : l = c := launches_unique h hf hl ⟨_, hc, rfl⟩
        have habandon {x y : Cell ε α ξ θ χ} (hq : s₁.cells[q]? = some x) (hx : x.isLazy = false) (hx' : x.callback = none)
            (hy : ∀ reschedule callback awaiting, y ≠ .launch reschedule child callback awaiting)
            (w : Wired ((s₁.set q y).destroy c)) : Wired (((s₁.set q y).destroy c).destroy child) := by
          have hqc : c ≠ q := by
            rintro rfl
            cases hq.symm.trans hc
            simp [Cell.callback] at hx'
          have hqch : child ≠ q := by
            rintro rfl
            cases hq.symm.trans hch
            contradiction
          refine w.abandon ((cell_set hq _ c).trans ((if_neg hqc).trans hc))
            ((cell_set hq _ child).trans ((if_neg hqch).trans hch)) rfl fun l reschedule callback awaiting hl => ?_
          rw [cell_set hq] at hl
          split at hl
          case isTrue  => cases hl; exact absurd rfl (hy _ _ _)
          case isFalse => exact hchild hl
        simp only [Setup.callback] at hcb
        split at hcb <;> try contradiction
        case h_1 hq =>
          split at hcb <;> try contradiction
          case isTrue hj =>
          obtain ⟨state', hw, rfl⟩ := Option.map_eq_some_iff.mp hcb
          refine (habandon hq rfl rfl (by simp) (w.complete hq (kept_collectAll ..) trivial rfl rfl (fun i => ?_) hc hu)).congr rfl
          simp only [Cell.Runs, (CollectAllAwaiter.Inv.complete_eq hw).2.1, exists_update, reduceCtorEq]
        case h_2 setup _ hq =>
          split at hcb <;> try contradiction
          case isTrue hj =>
          obtain ⟨state', hw, rfl⟩ := Option.map_eq_some_iff.mp hcb
          have hk := CollectAnyAwaiter.Inv.received_eq (m := setup) (a := .complete ⟨j, hj⟩ r) hw (by simp)
          refine (habandon hq rfl rfl (by simp) (w.complete hq (kept_collectAny hk) trivial rfl rfl (fun i => ?_) hc hu)).congr rfl
          simp only [Cell.Runs, (CollectAnyAwaiter.Inv.complete_eq hw).2.1, exists_update, reduceCtorEq]

theorem stepNode (w : Wired s₁) (h : Holding s₁ [a]) (hf : s₁.fault = none) (hs : m.stepNode s₁ t env a = some s₂) :
    Wired s₂ := by
  cases a <;> simp only [Setup.stepNode] at hs
  case starter => exact w.stepStarter h hs
  case child   => exact w.stepChild h hs
  case coro c  =>
    simp only [Setup.stepCoro] at hs
    split at hs <;> try contradiction
    case h_1 hc => exact w.stepLazy h hf hc hs
    case h_2 hc =>
      split at hs <;> cases hs
      case isFalse hr =>
        rw [Bool.not_eq_true] at hr
        exact w.stepVia (hr ▸ hc)
    case h_3 hc => exact w.stepLaunch h hf hc hs

theorem init : Wired (m.init : Config ε α ξ θ χ) where
  own c x hx := by
    obtain _ | _ | _ := c <;> cases hx
    case zero     => exact ⟨_, rfl, rfl⟩
    case succ.zero => exact own_new
  runs q j := by
    constructor
    case mp =>
      rintro ⟨x, hx, hr⟩
      obtain _ | _ | _ := q <;> cases hx <;> exact hr.elim
    case mpr =>
      rintro ⟨l, x, hx, hr⟩
      obtain _ | _ | _ := l <;> cases hx <;> simp [Cell.callback] at hr

theorem step (w : Wired s₁) (i : Inv s₁) (h : m.system.step s₁ a = some s₂) : Wired s₂ := by
  simp only [Setup.system] at h
  split at h
  case isFalse => contradiction
  case isTrue hf =>
    cases a <;> simp only [Setup.step] at h
    case run j t =>
      split at h
      case h_1 => split at h <;> cases h; exact w.congr rfl
      case h_2 => cases h; exact w.congr rfl
      case h_3 => contradiction
    case step j env =>
      split at h
      case h_2 => contradiction
      case h_1 ht =>
        obtain ⟨s, hs, rfl⟩ := Option.map_eq_some_iff.mp h
        have wt : Wired (s₁.take j) := w.congr rfl
        split
        case h_1 => exact wt.stepNode (i.holding.take ht) hf hs
        case h_2 => exact w.congr rfl

theorem reachable (h : m.system.Reachable s) : Wired s := by
  suffices Inv s ∧ Wired s from this.right
  exact h.invariant (I := fun s => Inv s ∧ Wired s) ⟨.init, .init⟩ fun i hs =>
    ⟨i.left.step hs, i.right.step i.left hs⟩

end Wired
end Lazy
end AsyncSimple
