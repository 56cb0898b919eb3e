import AsyncSimple.Coro.Theorems.Marking
import AsyncSimple.Coro.Theorems.Semantics
import AsyncSimple.Coro.Theorems.Stranding
import AsyncSimple.Coro.Theorems.Termination

open Transition

namespace AsyncSimple

namespace Lazy

variable {ε α ξ θ χ : Type}

-- What is promised of the outcome of a coroutine, which may have to be bound to an executor, or of those of
-- the children of a vector.
inductive Promise (ε α : Type)
  | coro (bound : Bool) (P : Try ε (Option α) → Prop)
  | vector (n : Nat) (P : Fin n → Try ε (Option α) → Prop)
  | nothing

-- What is left of a coroutine keeps its promise `Q`, if those of the others are kept, which are given in the
-- order of their creation.
def Stage.Ensures (ps : List (Promise ε α)) (executor_ : Option ξ) (Q : Try ε (Option α) → Prop) : Stage ε α ξ k → Prop
  | initial body | running body | suspended body => body.Ensures executor_ Q
  | awaiting child g   => ∃ bound P, ps[child]? = some (.coro bound P) ∧ ∀ v, P v → (g v).Ensures executor_ Q
  | external g         => ∀ v, (g v).Ensures executor_ Q
  | collectAll q g     => ∃ n P, ps[q]? = some (.vector n P) ∧
    ∀ v : Fin n → Try ε (Option α), (∀ i, P i (v i)) → (g (List.ofFn v)).Ensures executor_ Q
  | collectAny q g     => ∃ n P, ps[q]? = some (.vector n P) ∧ ∀ i v, P i v → (g ⟨some i, v⟩).Ensures executor_ Q
  | final              => True

def Slot.Ensures (Q : Try ε (Option α) → Prop) (final : Bool) (slot : Slot ε α k) : Prop :=
  if final then ∀ r, slot.tryResult = some r → Q r else slot = .empty k

def Callback.Ensures (Q : Try ε (Option α) → Prop) (ps : List (Promise ε α)) (P : Try ε (Option α) → Prop) : Callback → Prop
  | caller    => P = Q
  | child q j => ∃ n R, ∃ h : j < n, ps[q]? = some (.vector n R) ∧ R ⟨j, h⟩ = P

-- What the children of a vector have been asked for, and what they have produced.
def Collects (ps : List (Promise ε α)) (c : Nat) (reschedule : Bool) (children : Fin n → Body ε α ξ k)
    (bound : Fin n → Option ξ) (produced : Fin n → Option (Try ε (Option α))) : Prop :=
  (reschedule → ∀ i, (bound i).isSome) ∧ ∃ P, ps[c]? = some (.vector n P) ∧ (∀ i, (children i).Ensures (bound i) (P i)) ∧
    ∀ i v, produced i = some v → P i v

def Frame.Ensures (ps : List (Promise ε α)) (c : Nat) (f : Frame ε α ξ θ k) : Prop :=
  ∃ bound P, ps[c]? = some (.coro bound P) ∧ (bound → f.executor_.isSome) ∧ f.stage.Ensures ps f.executor_ P ∧
    f.result.Ensures P f.stage.isFinal

def Cell.Ensures (Q : Try ε (Option α) → Prop) (ps : List (Promise ε α)) (c : Nat) : Cell ε α ξ θ χ → Prop
  | lazy f                                       => f.Ensures ps c
  | launch reschedule child callback _           => ∃ bound P, ps[child]? = some (.coro bound P) ∧
    (reschedule → bound) ∧ callback.Ensures Q ps P
  | collectAll reschedule children setup state   => Collects ps c reschedule children setup.bound state.produced
  | collectAny reschedule children setup state   => Collects ps c reschedule children setup.bound state.produced
  | via _ _ _ | destroyed                        => True

variable {m : Setup ε α ξ θ χ} {Q P : Try ε (Option α) → Prop} {ps ps' : List (Promise ε α)}
  {s s₁ s₂ : Config ε α ξ θ χ} {x y : Cell ε α ξ θ χ} {env : Env ε α}

-- What is promised later does not change what has been promised before.

theorem Stage.Ensures.mono {stage : Stage ε α ξ k} (h : stage.Ensures ps executor_ Q) (hp : ps <+: ps') :
    stage.Ensures ps' executor_ Q := by
  cases stage
  case awaiting                =>
    obtain ⟨bound, P, hc, h⟩ := h
    exact ⟨bound, P, getElem?_mono hp hc, h⟩
  case collectAll | collectAny =>
    obtain ⟨n, P, hq, h⟩ := h
    exact ⟨n, P, getElem?_mono hp hq, h⟩
  all_goals exact h

theorem Callback.Ensures.mono {callback : Callback} (h : callback.Ensures Q ps P) (hp : ps <+: ps') :
    callback.Ensures Q ps' P := by
  cases callback
  case caller => exact h
  case child  =>
    obtain ⟨n, R, hj, hq, hR⟩ := h
    exact ⟨n, R, hj, getElem?_mono hp hq, hR⟩

theorem Collects.mono {children : Fin n → Body ε α ξ k} (h : Collects ps c reschedule children bound produced)
    (hp : ps <+: ps') : Collects ps' c reschedule children bound produced := by
  obtain ⟨hr, P, hc, h⟩ := h
  exact ⟨hr, P, getElem?_mono hp hc, h⟩

theorem Cell.Ensures.mono (hp : ps <+: ps') (h : x.Ensures Q ps c) : x.Ensures Q ps' c := by
  cases x
  case lazy                    =>
    obtain ⟨bound, P, hc, hb, hs, hr⟩ := h
    exact ⟨bound, P, getElem?_mono hp hc, hb, hs.mono hp, hr⟩
  case launch callback _       =>
    obtain ⟨bound, P, hc, hr, hcb⟩ := h
    exact ⟨bound, P, getElem?_mono hp hc, hr, hcb.mono hp⟩
  case collectAll | collectAny => exact Collects.mono h hp
  all_goals trivial

-- The results of all coroutines are what has been promised.
def keeps (Q : Try ε (Option α) → Prop) : Marking ε α ξ θ χ (Promise ε α) where
  cell ps c x      := x.Ensures Q ps c
  token _ _        := True
  result           := Q
  destroyed        := trivial
  cell_mono hp _ h := h.mono hp
  token_mono _ _   := trivial

theorem Stage.Ensures.body {stage : Stage ε α ξ k} {b : Body ε α ξ k} (h : stage.Ensures ps executor_ P)
    (hp : stage.body = some b) : b.Ensures executor_ P := by
  cases stage <;> cases hp <;> exact h

namespace Frame.Ensures

variable {f : Frame ε α ξ θ k}

-- A coroutine that is not at its end reaches its next stage.
theorem enter {stage : Stage ε α ξ k} (h : f.Ensures ps c) (hf : f.stage.isFinal = false) (hs : stage.isFinal = false)
    (he : ∀ bound P, ps[c]? = some (.coro bound P) → f.stage.Ensures ps f.executor_ P → stage.Ensures ps' f.executor_ P)
    (hp : ps <+: ps') : (f.enter t stage).Ensures ps' c := by
  obtain ⟨bound, P, hc, hb, hst, hr⟩ := h
  refine ⟨bound, P, getElem?_mono hp hc, hb, he bound P hc hst, ?_⟩
  simp only [hf, Frame.enter, hs] at hr ⊢
  exact hr

theorem running {body : Body ε α ξ k} (h : f.Ensures ps c) (hf : f.stage.isFinal = false)
    (he : ∀ P, f.stage.Ensures ps f.executor_ P → body.Ensures f.executor_ P) : (f.enter t (.running body)).Ensures ps c :=
  h.enter hf rfl (fun _ P _ => he P) List.prefix_rfl

-- It waits for what is created with its promise.
theorem suspend {stage : Stage ε α ξ k} (h : f.Ensures ps c) (hf : f.stage.isFinal = false) (hs : stage.isFinal = false)
    (hc : ps[c]? = some (.coro bound P)) (he : stage.Ensures (ps ++ l) f.executor_ P) :
    (f.enter t stage).Ensures (ps ++ l) c := by
  refine h.enter hf hs (fun _ P' hc' _ => ?_) (List.prefix_append ..)
  cases hc.symm.trans hc'
  exact he

theorem new {bound : Bool} {child : Body ε α ξ k} {h : Option Nat} {t : Option θ} (hc : ps[c]? = some (.coro bound P))
    (hx : bound → executor.isSome) (hb : child.Ensures executor P) : (Frame.new child executor h t : Frame ε α ξ θ k).Ensures ps c :=
  ⟨bound, P, hc, hx, hb, rfl⟩

-- The result of a coroutine that is at its end is what has been promised.
theorem result (h : f.Ensures ps c) (hc : ps[c]? = some (.coro bound P)) (hf : f.stage.isFinal)
    (hr : f.result.tryResult = some r) : P r := by
  obtain ⟨_, _, hc', _, _, hv⟩ := h
  cases hc.symm.trans hc'
  simp only [Slot.Ensures, hf, if_true] at hv
  exact hv r hr

-- The coroutine runs up to its next suspension point.

theorem ends {result : Slot ε α k} (h : f.Ensures ps c) (hp : f.stage = .running body) (hb : body.Ends f.result result) :
    ({ f with result }.enter t .final : Frame ε α ξ θ k).Ensures ps c := by
  obtain ⟨bound, P, hc, hx, hst, hr⟩ := h
  rw [hp] at hst hr
  refine ⟨bound, P, hc, hx, trivial, fun r hres => ?_⟩
  cases hb
  case coReturn => cases hres; exact hst
  case coReturnVoid =>
    have hv : f.result = .empty .void := hr
    rw [Frame.enter, hv] at hres
    cases hres
    exact hst
  case throw => cases hv : f.result <;> simp only [Frame.enter, hv] at hres <;> cases hres <;> exact hst

theorem goes (h : f.Ensures ps c) (hp : f.stage = .running body) (hb : body.Goes m t f.executor_ body') :
    (f.enter t (.running body')).Ensures ps c := by
  refine h.running (by rw [hp]; rfl) fun P hst => ?_
  rw [hp] at hst
  cases hb
  case currentExecutor => exact hst
  case schedule        => exact hst
  case awaitExternal   => exact hst _
  case collectAll      =>
    obtain ⟨_, R, _, hg⟩ := hst
    simpa using hg (fun i => i.elim0) (fun i => i.elim0)

theorem leaves (h : f.Ensures ps c) (hp : f.stage = .running body) (hb : body.Leaves f.executor_ e body') :
    (f.enter t (.suspended body')).Ensures ps c := by
  refine h.enter (by rw [hp]; rfl) rfl (fun _ P _ hst => ?_) List.prefix_rfl
  rw [hp] at hst
  cases hb
  case yield         => exact hst.right
  case schedule      => exact hst
  case scheduleAfter => exact hst

-- What it awaits is asked for a result that what is left of it can be given.
theorem awaits {l : List (Cell ε α ξ θ χ)} {stage : Stage ε α ξ k} (h : f.Ensures ps c) (hp : f.stage = .running body)
    (hb : body.Awaits m t c f ps.length l stage p a) :
    ∃ ps' : List (Promise ε α), ps'.length = l.length ∧ (f.enter t stage).Ensures (ps ++ ps') c ∧
      ∀ (i : Nat) y, l[i]? = some y → y.Ensures Q (ps ++ ps') (ps.length + i) := by
  have hfin : f.stage.isFinal = false := by rw [hp]; rfl
  obtain ⟨_, P, hc, _, hst, _⟩ := id h
  rw [hp] at hst
  cases hb
  case await g child =>
    refine ⟨[.coro false fun v => (g v).Ensures f.executor_ P], rfl, h.suspend hfin rfl hc ?_,
      fun _ _ => Marking.single (I := keeps Q) (.new List.getElem?_concat_length (by simp) hst)⟩
    exact ⟨_, _, List.getElem?_concat_length, fun _ hv => hv⟩
  case awaitVia g child =>
    refine ⟨[.nothing, .coro true fun v => (g v).Ensures f.executor_ P], rfl, h.suspend hfin rfl hc ?_,
      fun _ _ => Marking.pair (I := keeps Q) trivial (.new Marking.getElem?_pair (by simp) hst.right)⟩
    exact ⟨_, _, Marking.getElem?_pair, fun _ hv => hv⟩
  case awaitExternal =>
    exact ⟨[.nothing], rfl, h.suspend hfin rfl hc hst, fun _ _ => Marking.single (I := keeps Q) trivial⟩
  case collectAll hx =>
    subst hx
    obtain ⟨hr, R, hch, hg⟩ := hst
    refine ⟨[.vector _ R], rfl, h.suspend hfin rfl hc ⟨_, R, List.getElem?_concat_length, hg⟩,
      fun _ _ => Marking.single (I := keeps Q) ?_⟩
    exact ⟨hr, R, List.getElem?_concat_length, hch, fun _ _ h => by contradiction⟩
  case collectAllVia hx =>
    subst hx
    obtain ⟨hr, R, hch, hg⟩ := hst
    refine ⟨[.nothing, .vector _ R], rfl, h.suspend hfin rfl hc ⟨_, R, Marking.getElem?_pair, hg⟩,
      fun _ _ => Marking.pair (I := keeps Q) trivial ?_⟩
    exact ⟨hr, R, Marking.getElem?_pair, hch, fun _ _ h => by contradiction⟩
  case collectAny n _ _ _ _ _ hx =>
    subst hx
    obtain ⟨_, hr, hch⟩ := hst
    refine ⟨[.vector n _], rfl, h.suspend hfin rfl hc ⟨n, _, List.getElem?_concat_length, fun _ _ hv => hv⟩,
      fun _ _ => Marking.single (I := keeps Q) ?_⟩
    exact ⟨hr, _, List.getElem?_concat_length, hch, fun _ _ h => by contradiction⟩
  case collectAnyVia n _ _ _ _ _ hx =>
    subst hx
    obtain ⟨_, hr, hch⟩ := hst
    refine ⟨[.nothing, .vector n _], rfl, h.suspend hfin rfl hc ⟨n, _, Marking.getElem?_pair, fun _ _ hv => hv⟩,
      fun _ _ => Marking.pair (I := keeps Q) trivial ?_⟩
    exact ⟨hr, _, Marking.getElem?_pair, hch, fun _ _ h => by contradiction⟩

theorem execs (h : f.Ensures ps c) (hp : f.stage = .running body) : (keeps Q).Execs m ps t c f body where
  finish hb  := h.ends hp hb
  proceed hb := h.goes hp hb
  leave hb   := ⟨h.leaves hp hb, trivial⟩
  await hb   := by
    obtain ⟨ps', hl, hf, hy⟩ := h.awaits (Q := Q) hp hb
    exact ⟨ps', hl, hf, trivial, hy⟩

end Frame.Ensures

theorem Collects.update {children : Fin n → Body ε α ξ k} {n' : Nat} {R : Fin n' → Try ε (Option α) → Prop} {j : Nat}
    (h : Collects ps c reschedule children bound produced) (hp : ps[c]? = some (.vector n' R)) (hj : j < n') (hj' : j < n)
    (hr : R ⟨j, hj⟩ r) :
    Collects ps c reschedule children bound (Function.update produced ⟨j, hj'⟩ (some r)) := by
  obtain ⟨hx, R', hp', hc, hv⟩ := h
  cases hp.symm.trans hp'
  refine ⟨hx, _, hp, hc, fun i v hi => ?_⟩
  by_cases hij : i = ⟨j, hj'⟩
  · subst hij
    rw [Function.update_self] at hi
    cases hi
    exact hr
  · rw [Function.update_of_ne hij] at hi
    exact hv i v hi

-- The child that `Start` launches is given what it has been asked for.
theorem Collects.start {children : Fin n → Body ε α ξ k} (θ χ : Type) (h : Collects ps q reschedule children bound produced)
    (j : Fin n) : ∃ P,
      (Cell.launch reschedule (ps.length + 1) (.child q j) false : Cell ε α ξ θ χ).Ensures Q
        (ps ++ [.nothing, .coro reschedule P]) ps.length ∧
      (Frame.new (children j) (bound j) none none : Frame ε α ξ θ k).Ensures (ps ++ [.nothing, .coro reschedule P])
        (ps.length + 1) := by
  obtain ⟨hx, R, hp, hc, _⟩ := h
  exact ⟨R j, ⟨reschedule, R j, Marking.getElem?_pair, id, n, R, j.isLt, getElem?_mono (List.prefix_append ..) hp, rfl⟩,
    .new Marking.getElem?_pair (fun hr => hx hr j) (hc j)⟩

theorem sound_keeps : (keeps Q).Sound m fun _ => True where
  begin _ h _ hp := h.running (Stage.not_final hp) fun P hst => hst.body hp
  external _ h _ hp r := h.running (by rw [hp]; rfl) fun P hst => by
    rw [hp] at hst
    exact hst r
  await _ h _ hp hch hf hr := h.running (by rw [hp]; rfl) fun P hst => by
    rw [hp] at hst
    obtain ⟨_, R, hc, hg⟩ := hst
    exact hg _ (Frame.Ensures.result hch hc hf hr)
  collectAll _ h _ hp hq hr := h.running (by rw [hp]; rfl) fun P hst => by
    rw [hp] at hst
    obtain ⟨_, R, hc, hg⟩ := hst
    obtain ⟨_, R', hc', _, hv⟩ := hq
    cases hc.symm.trans hc'
    exact hg _ fun i => hv i _ (hr i)
  collectAny _ h _ hp hq hr := h.running (by rw [hp]; rfl) fun P hst => by
    rw [hp] at hst
    obtain ⟨_, R, hc, hg⟩ := hst
    obtain ⟨_, R', hc', _, hv⟩ := hq
    cases hc.symm.trans hc'
    exact hg _ _ (hv _ _ hr)
  exec _ _ h _ hp _ := h.execs hp
  via _ := trivial
  launch h := h
  child _ _ _ h _ := h
  deliver h hch hf hr := by
    obtain ⟨_, P, hc, _, hcb⟩ := h
    exact hcb ▸ Frame.Ensures.result hch hc hf hr
  complete h hch hf hr hq hx := by
    obtain ⟨_, P, hc, _, _, R, hj, hv, rfl⟩ := h
    have hP := Frame.Ensures.result hch hc hf hr
    cases hx
    case collectAll hp _ =>
      simp only [keeps, Cell.Ensures] at hq ⊢
      exact hp ▸ hq.update hv hj _ hP
    case collectAny hp _ =>
      simp only [keeps, Cell.Ensures] at hq ⊢
      exact hp ▸ hq.update hv hj _ hP
  moves h hx := by
    cases hx
    case collectAll hp _ =>
      simp only [keeps, Cell.Ensures] at h ⊢
      exact hp ▸ h
    case collectAny hp _ =>
      simp only [keeps, Cell.Ensures] at h ⊢
      exact hp ▸ h
  start _ h hc _ := by
    cases hc
    case collectAll j _ =>
      obtain ⟨P, hl, hch⟩ := Collects.start θ χ h j
      exact ⟨_, _, hl, hch, trivial⟩
    case collectAny j _ =>
      obtain ⟨P, hl, hch⟩ := Collects.start θ χ h j
      exact ⟨_, _, hl, hch, trivial⟩
  run _ _ := trivial
  next _ _ _ _ := trivial
  resume _ _ := trivial
  checkin _ := trivial
  schedule _ _ _ := trivial
  launched _ _ _ := trivial
  queue _ _ _ _ := trivial

namespace Keeps

theorem init (hp : m.program.Ensures m.executor_ Q) (hm : m.reschedule → m.executor_.isSome) :
    Marked (keeps Q) [.nothing, .coro m.reschedule Q] (m.init : Config ε α ξ θ χ) where
  length      := rfl
  cells c x h := by
    simp only [Setup.init] at h
    obtain _ | _ | c := c <;> cases h
    case zero      => exact ⟨m.reschedule, Q, rfl, id, rfl⟩
    case succ.zero => exact .new rfl hm hp
  tokens _ _  := trivial
  refused _ h := by simp [Setup.init] at h
  delivered _ := by simp [Setup.init]

theorem reachable (hp : m.program.Ensures m.executor_ Q) (hm : m.reschedule → m.executor_.isSome)
    (h : m.system.Reachable s) : ∃ ps, Marked (keeps Q) ps s :=
  ((init hp hm).reachable sound_keeps h).imp fun _ => And.right

-- No step fails.
theorem fails_eq (e : Marked (keeps Q) ps s) (a : Node) : s.fails a = false := by
  cases a <;> try rfl
  case coro c =>
  simp only [Config.fails]
  cases hc : s.cells[c]?
  case none   => rfl
  case some x =>
  have hx : x.Ensures Q ps c := e.cells c x hc
  cases x <;> try rfl
  case launch reschedule child callback awaiting =>
    obtain ⟨_, P, hP, hr, _⟩ := hx
    cases reschedule <;> cases awaiting <;> try rfl
    simp only [Option.any_some, Config.failsCell]
    split
    case h_2          => rfl
    case h_1 k f hch  =>
      have hf : f.Ensures ps child := e.cells child _ hch
      obtain ⟨_, _, hP', hx, _⟩ := hf
      cases hP.symm.trans hP'
      simpa using hx (hr rfl)
  case lazy f =>
    simp only [Option.any_some, Config.failsCell]
    split
    case h_2         => rfl
    case h_1 body hp =>
    obtain ⟨_, P, _, _, hst, _⟩ := hx
    rw [hp] at hst
    cases body <;> try rfl
    case yield      => simpa [Body.fails] using hst.left
    case awaitVia   => simpa [Body.fails] using hst.left
    case collectAny => simpa [Body.fails] using hst.left

theorem fault_eq_none (hp : m.program.Ensures m.executor_ Q) (hm : m.reschedule → m.executor_.isSome)
    (h : m.system.Reachable s) : s.fault = none :=
  Lazy.fault_eq_none (fun _ a h => (reachable hp hm h).elim fun _ e => fails_eq e a) h

end Keeps

-- No assertion has failed, what is on a thread can go on, and the caller has not got more than one result,
-- which satisfies `Q`. When the executors have not refused anything, and have run all that they were given,
-- then the caller has got its result, and no coroutine is suspended.
structure Config.Meets (m : Setup ε α ξ θ χ) (Q : Try ε (Option α) → Prop) (s : Config ε α ξ θ χ) : Prop where
  fault     : s.fault = none
  steps     : ∀ (j : Nat) t n, s.tokens[j]? = some ⟨.running t, n⟩ → ∃ env, env.accept ∧ (m.system.step s (.step j env)).isSome
  delivered : s.delivered = [] ∨ ∃ r, s.delivered = [r] ∧ Q r
  finished  : s.refused = [] → s.tokens = [] →
    s.delivered ≠ [] ∧ ∀ (c : Nat) x, s.cells[c]? = some x → x.isSuspended = false

theorem meets (hp : m.program.Ensures m.executor_ Q) (hm : m.reschedule → m.executor_.isSome)
    (h : m.system.Reachable s) : s.Meets m Q where
  fault          := Keeps.fault_eq_none hp hm h
  steps _ _ _ ht :=
    ⟨⟨true, .ready, .nothing⟩, rfl, (Wired.reachable h).step_isSome (.reachable h) (Keeps.fault_eq_none hp hm h) rfl ht⟩
  delivered      := by
    obtain ⟨_, e⟩ := Keeps.reachable hp hm h
    have ho : s.Once := .reachable h
    have hq := e.delivered
    simp only [Config.Once] at ho
    cases hd : s.delivered
    case nil       => exact .inl rfl
    case cons r l  =>
      rw [hd] at ho hq
      simp only [List.length_cons] at ho
      obtain rfl : l = [] := List.eq_nil_of_length_eq_zero (by omega)
      exact .inr ⟨r, rfl, hq r (List.mem_singleton_self r)⟩
  finished hr ht := by
    obtain ⟨r, hd⟩ := (Config.Once.reachable h).delivered ((Inv.reachable h).needs_eq_zero hr ht)
    exact ⟨by simp [hd], fun _ _ => (Inv.reachable h).not_suspended hr ht⟩

theorem adequate (hp : m.program.Ensures m.executor_ Q) (hm : m.reschedule → m.executor_.isSome) :
    (∀ s, m.system.Reachable s → s.Meets m Q) ∧ m.system.Terminates :=
  ⟨fun _ h => meets hp hm h, terminates m⟩

-- The coroutine yields after the first of two children has completed.

def awaitRace : Body Unit Nat Nat .value :=
  .collectAny 2 .value false (fun _ => none) (fun i => .coReturn i.val) fun r =>
    .yield (match r.value with
      | .value (some v) => .coReturn v
      | _               => .throw (.thrown ()))

def startRace : Setup Unit Nat Nat Nat Nat where
  executor   := worker
  kind       := .value
  program    := awaitRace
  reschedule := false
  executor_  := some 0
  thread     := 2

def stepRace (i : Nat) : Action Unit Nat Nat :=
  .step i ⟨true, .ready, .nothing⟩

-- The second child is faster than the first one.
theorem adequate_race :
    (∃ s, startRace.system.Reachable s ∧ s.delivered = [.value (some 1)]) ∧
    (∀ s, startRace.system.Reachable s → s.Meets startRace fun r => ∃ i < 2, r = .value (some i)) ∧
    startRace.system.Terminates := by
  constructor
  · obtain ⟨s, hr, hs⟩ := startRace.system.exists_reachable
      (List.replicate 15 (stepRace 0) ++ [stepRace 1] ++ List.replicate 9 (stepRace 2) ++ [.run 2 0] ++
        List.replicate 3 (stepRace 2)) (p := fun s => s.delivered = [.value (some 1)]) (by decide)
    exact ⟨s, hr, of_decide_eq_true hs⟩
  · exact adequate ⟨by decide, fun h => by contradiction, fun i => ⟨rfl, i.val, i.isLt, rfl⟩⟩ fun h => by contradiction

-- The caller gets nothing but `r`, and gets it when everything has been run.
def Setup.Delivers (m : Setup ε α ξ θ χ) (r : Try ε (Option α)) : Prop :=
  ∀ s, m.system.Reachable s → s.Meets m (· = r)

-- A program is started with these executors and on this thread.
def Body.on (body : Body ε α ξ k) (executor_ : Option ξ) (reschedule : Bool) (executor : ξ → Executor θ χ) (thread : θ) :
    Setup ε α ξ θ χ :=
  ⟨executor, k, body, reschedule, executor_, thread⟩

theorem Body.Sound.delivers {body : Body ε α ξ k} {executor_ : Option ξ} {reschedule : Bool} {executor : ξ → Executor θ χ}
    (hs : body.Sound executor_)
    (hr : ∀ r', body.Gives executor_ r' → r' = r)
    (hm : reschedule → executor_.isSome) (thread : θ) :
    (body.on executor_ reschedule executor thread).Delivers r :=
  fun _ h => meets (hs.ensures hr) hm h

-- The result does not depend on the executors and threads, nor on the order of steps.
theorem determined {body : Body ε α ξ k} {executor_ : Option ξ} (hd : body.Determined) (hs : body.Sound executor_) :
    ∃ r, body.Gives executor_ r ∧ ∀ (θ χ : Type) (executor : ξ → Executor θ χ) (thread : θ) (reschedule : Bool),
      (reschedule → executor_.isSome) → (body.on executor_ reschedule executor thread).Delivers r := by
  obtain ⟨r, hg, hu⟩ := hd.existsUnique executor_
  exact ⟨r, hg, fun _ _ _ _ _ hm => hs.delivers hu hm _⟩

-- The children run on executors of their own, and one of them throws.

def awaitBoth : Body Unit Nat Nat .value :=
  .collectAll 2 true true (fun i => some i.val)
    (fun i => if i.val = 0 then .coReturn 1 else .throw (.thrown ()) : Fin 2 → Body Unit Nat Nat .value) fun rs =>
      .coReturn (rs.countP fun r => r.hasException)

theorem determined_both :
    ∃ r, awaitBoth.Gives (some 2) r ∧ ∀ (θ χ : Type) (executor : Nat → Executor θ χ) (thread : θ) (reschedule : Bool),
      (reschedule → (some 2).isSome) → (awaitBoth.on (some 2) reschedule executor thread).Delivers r := by
  refine determined ⟨fun i => ?_, fun _ => trivial⟩ ⟨fun _ _ => rfl, fun _ _ => True, fun i => ?_, fun _ _ => trivial⟩ <;>
    dsimp only <;> split <;> trivial

-- The windows of `CollectAllWindowed`, the executor for its children, and the yields after the windows do not
-- change what `CollectAll` gives to the coroutine.
theorem windowed {input : List (Body ε α ξ k')} {f : List (Try ε (Option α)) → Body ε α ξ k} {executor_ : Option ξ}
    {yield reschedule : Bool} (hs : (Body.awaitAll false input f).Sound executor_) (hy : yield → executor_.isSome)
    (hm : reschedule → executor_.isSome) (para : Bool) (max_concurrency : Nat) (executor : ξ → Executor θ χ)
    (thread : θ) :
    let m := (Body.collectAllWindowed para max_concurrency yield input f).on executor_ reschedule executor thread
    (∀ s, m.system.Reachable s → s.Meets m ((Body.awaitAll false input f).Gives executor_)) ∧ m.system.Terminates := by
  intro m
  have hq : m.program.Ensures m.executor_ ((Body.awaitAll false input f).Gives executor_) :=
    (hs.collectWindows hy).ensures fun _ => Body.gives_collectAllWindowed.mp
  exact ⟨fun _ h => meets hq hm h, terminates m⟩

def countWindows : List (Try Unit (Option Nat)) → Body Unit Nat Nat .value :=
  fun rs => .coReturn rs.length

theorem windowed_three :
    let input := List.replicate 3 (.coReturn 1 : Body Unit Nat Nat .value)
    let m := (Body.collectAllWindowed true 2 true input countWindows).on (some 0) true worker 5
    (∀ s, m.system.Reachable s → s.Meets m ((Body.awaitAll false input countWindows).Gives (some 0))) ∧ m.system.Terminates :=
  windowed (Body.ensures_awaitAll.mpr ⟨fun _ hc => List.eq_of_mem_replicate hc ▸ trivial, fun vs _ =>
    show (countWindows vs).Ensures _ _ from trivial⟩) (fun _ => rfl) (fun _ => rfl) true 2 worker 5

end Lazy
end AsyncSimple
