import AsyncSimple.Coro.DirectStyle
import AsyncSimple.Coro.Theorems.Adequacy

open Transition

namespace AsyncSimple
namespace Lazy

variable {ε α ξ θ χ : Type}

-- The outcome of a coroutine is that of the direct evaluation, and it does not use an executor that is null.
theorem Code.ensures (code : Code ε α ξ k) {executor_ : Option ξ} {Q : Try ε (Option α) → Prop} (h : Q code.eval) :
    code.body.Ensures executor_ Q := by
  induction code generalizing executor_ Q
  case coReturn                => exact h
  case coReturnVoid            => exact h
  case throw                   => exact h
  case await child f ihc ihf    => exact ihc (ihf _ h)
  case awaitVia e child f ihc ihf => exact ⟨rfl, ihc (ihf _ h)⟩

-- What is left of a coroutine awaits other coroutines only.
def Stage.Direct : Stage ε α ξ k → Prop
  | initial body | running body => ∃ code : Code ε α ξ k, code.body = body
  | awaiting _ g                => ∃ code : Try ε (Option α) → Code ε α ξ k, ∀ v, (code v).body = g v
  | final                       => True
  | _                           => False

-- The coroutine that `Start` has launched comes first, and the one that it awaits is next.
def Cell.Direct (c : Nat) : Cell ε α ξ θ χ → Prop
  | lazy f                  => f.stage.Direct ∧ c ≠ 0
  | launch _ child callback _ => c = 0 ∧ child = 1 ∧ callback = .caller
  | via _ _ _ | destroyed   => True
  | _                       => False

def direct : Marking ε α ξ θ χ Unit where
  cell _ c x     := x.Direct c
  token _ _      := True
  result _       := True
  destroyed      := trivial
  cell_mono _ _  := id
  token_mono _ _ := trivial

variable {m : Setup ε α ξ θ χ} {s s₁ s₂ : Config ε α ξ θ χ} {x y : Cell ε α ξ θ χ} {env : Env ε α} {marks : List Unit}

theorem Stage.Direct.initial {stage : Stage ε α ξ k} {b : Body ε α ξ k} (h : stage.Direct) (hp : stage.body = some b) :
    stage = .initial b ∧ ∃ code : Code ε α ξ k, code.body = b := by
  cases stage <;> cases hp
  case initial   => exact ⟨rfl, h⟩
  case suspended => exact h.elim

theorem Stage.eq_initial {stage : Stage ε α ξ k} (h : stage.isInitial) : ∃ body, stage = .initial body := by
  cases stage <;> first | exact ⟨_, rfl⟩ | contradiction

theorem Stage.eq_final {stage : Stage ε α ξ k} (h : stage.isFinal) : stage = .final := by
  cases stage <;> first | rfl | contradiction

theorem Code.execs {f : Frame ε α ξ θ k} (code : Code ε α ξ k) (h₀ : c ≠ 0) (hc : c < marks.length) :
    direct.Execs m marks t c f code.body where
  finish _   := ⟨trivial, h₀⟩
  proceed hb := by cases code <;> cases hb
  leave hb   := by cases code <;> cases hb
  await hb   := by
    cases code <;> cases hb
    case await child g    =>
      refine ⟨[()], rfl, ⟨⟨g, fun _ => rfl⟩, h₀⟩, trivial, fun _ _ => Marking.single (I := direct) ?_⟩
      exact ⟨⟨child, rfl⟩, Nat.ne_of_gt (Nat.zero_lt_of_lt hc)⟩
    case awaitVia child g =>
      refine ⟨[(), ()], rfl, ⟨⟨g, fun _ => rfl⟩, h₀⟩, trivial, fun _ _ => Marking.pair (I := direct) trivial ?_⟩
      exact ⟨⟨child, rfl⟩, Nat.succ_ne_zero _⟩

theorem sound_direct : direct.Sound m fun _ => True where
  begin _ h _ hp            := ⟨(h.left.initial hp).right, h.right⟩
  external _ h _ hp _       := by
    have := h.left
    rw [hp] at this
    exact this.elim
  await _ h _ hp _ _ _      := by
    obtain ⟨hst, h₀⟩ := h
    rw [hp] at hst
    obtain ⟨code, hb⟩ := hst
    exact ⟨⟨code _, hb _⟩, h₀⟩
  collectAll _ _ _ _ h _    := h.elim
  collectAny _ _ _ _ h _    := h.elim
  exec _ hc h _ hp _        := by
    obtain ⟨hst, h₀⟩ := h
    rw [hp] at hst
    obtain ⟨code, rfl⟩ := hst
    exact code.execs h₀ hc
  via _                     := trivial
  launch h                  := h
  child _ _ _ h _           := h
  deliver _ _ _ _           := trivial
  complete h _ _ _ _ _      := by cases h.right.right
  moves h hx                := by cases hx <;> exact h.elim
  start _ h hc _            := by cases hc <;> exact h.elim
  run _ _                   := trivial
  next _ _ _ _              := trivial
  resume _ _                := trivial
  checkin _                 := trivial
  schedule _ _ _            := trivial
  launched _ _ _            := trivial
  queue _ _ _ _             := trivial

-- The steps of such coroutines, and what happens to them.
inductive DirectStep (s : Config ε α ξ θ χ) (t : θ) (accept : Bool) : Option (Moment × Nat) → Config ε α ξ θ χ → Prop
  | begin {f : Frame ε α ξ θ k} (hc : s.cells[c]? = some (.lazy f)) (h₀ : c ≠ 0) (hq : f.continuation_.isSome)
    (hp : f.stage = .initial body) : DirectStep s t accept (some (.started, c)) (s.proceed t c f body)
  | finish {f : Frame ε α ξ θ k} (hc : s.cells[c]? = some (.lazy f)) (h₀ : c ≠ 0) (hq : f.continuation_.isSome)
    (hp : f.stage = .running body) :
    DirectStep s t accept (some (.transferred, c)) ((s.enter t c { f with result } .final).put (.running t) (.coro q))
  | await {f : Frame ε α ξ θ k} {child : Body ε α ξ k'} (hc : s.cells[c]? = some (.lazy f)) (h₀ : c ≠ 0)
    (hq : f.continuation_.isSome) (hp : f.stage = .running body) (hl : ∀ x ∈ l, x.target.isSome) :
    DirectStep s t accept (some (.awaited, s.cells.length + l.length))
      (((s.append (l ++ [.lazy (.new child executor (some q) thread)])).enter t c f
        (.awaiting (s.cells.length + l.length) g)).hand p (.coro (s.cells.length + l.length)) accept)
  | get {f : Frame ε α ξ θ k} {f' : Frame ε α ξ θ k'} (hc : s.cells[c]? = some (.lazy f)) (h₀ : c ≠ 0)
    (hq : f.continuation_.isSome) (hp : f.stage = .awaiting child g) (hch : s.cells[child]? = some (.lazy f'))
    (h₁ : child ≠ 0) (hq' : f'.continuation_.isSome) (hf : f'.stage = .final) (hne : c ≠ child) :
    DirectStep s t accept (some (.resumed, child)) ((s.proceed t c f (g r)).destroy child)
  | via (hc : s.cells[c]? = some (.via context continuation false)) :
    DirectStep s t accept none ((s.set c (.via context continuation true)).hand p (.coro continuation) accept)
  | launch {f : Frame ε α ξ θ k} (hl : s.cells[0]? = some (.launch reschedule 1 .caller false))
    (hch : s.cells[1]? = some (.lazy f)) (hq : f.continuation_ = none) (hp : f.stage = .initial body) :
    DirectStep s t accept (some (.awaited, 1))
      (((s.set 0 (.launch reschedule 1 .caller true)).set 1 (.lazy { f with continuation_ := some 0, thread })).hand p (.coro 1)
        accept)
  | deliver {f : Frame ε α ξ θ k} (hl : s.cells[0]? = some (.launch reschedule 1 .caller true))
    (hch : s.cells[1]? = some (.lazy f)) (hq : f.continuation_.isSome) (hf : f.stage = .final) :
    DirectStep s t accept (some (.resumed, 1)) (({ s with delivered := s.delivered ++ [r] }.destroy 0).destroy 1)

namespace Direct

theorem init (code : Code ε α ξ m.kind) (hp : m.program = code.body) :
    Marked direct [(), ()] (m.init : Config ε α ξ θ χ) where
  length      := rfl
  cells c x h := by
    obtain _ | _ | c := c <;> cases h
    case zero      => exact ⟨rfl, rfl, rfl⟩
    case succ.zero => exact ⟨⟨code, hp.symm⟩, Nat.one_ne_zero⟩
  tokens _ _  := trivial
  refused _ h := by simp [Setup.init] at h
  delivered _ := fun _ => trivial

theorem reachable (code : Code ε α ξ m.kind) (hp : m.program = code.body) (h : m.system.Reachable s) :
    ∃ marks, Marked direct marks s :=
  ((init code hp).reachable sound_direct h).imp fun _ => And.right

theorem isSome_of_awaits {f : Frame ε α ξ θ k} (h : s.Awaits c child) (hch : s.cells[child]? = some (.lazy f)) :
    f.continuation_.isSome := by
  obtain ⟨q, hq, _⟩ := h
  have hq : f.continuation_ = some q := by simpa [Config.cont, hch, Cell.cont] using hq
  simp [hq]

theorem exec_cases {f : Frame ε α ξ θ k} {code : Code ε α ξ k} (hc : s₁.cells[c]? = some (.lazy f)) (h₀ : c ≠ 0)
    (hq : f.continuation_.isSome) (hp : f.stage = .running code.body) (hs : ExecStep m s₁ t c env f code.body s₂) :
    DirectStep s₁ t env.accept (code.body.moment s₁.cells.length c) s₂ := by
  cases hs
  case proceed hb => cases code <;> cases hb
  case leave hb   => cases code <;> cases hb
  case finish hb _ => cases code <;> cases hb <;> exact .finish hc h₀ hq hp
  case await hb   =>
    cases code <;> cases hb
    case await    => exact DirectStep.await (l := []) hc h₀ hq hp (by simp)
    case awaitVia => exact DirectStep.await (l := [m.via f.executor_ t c]) hc h₀ hq hp (by simp [Setup.via, Cell.target])

theorem lazy_cases {f : Frame ε α ξ θ k} (d : Marked direct marks s₁) (h : Holding s₁ [.coro c]) (hf : s₁.fault = none)
    (hc : s₁.cells[c]? = some (.lazy f)) (hs : LazyStep m s₁ t c env f s₂) :
    DirectStep s₁ t env.accept ((Cell.lazy f : Cell ε α ξ θ χ).moment s₁.cells.length c) s₂ := by
  have hq := (Bool.and_eq_true_iff.mp (h.alive hf hc)).left
  obtain ⟨hst, h₀⟩ := d.cells c _ hc
  simp only [Cell.moment]
  cases hs
  case begin hp      =>
    have hi := (hst.initial hp).left
    rw [hi]
    exact .begin hc h₀ hq hi
  case exec hp hs    =>
    rw [hp] at hst ⊢
    obtain ⟨code, rfl⟩ := hst
    exact exec_cases hc h₀ hq hp hs
  case external hp   =>
    rw [hp] at hst
    exact hst.elim
  case collectAll hp _ _ =>
    rw [hp] at hst
    exact hst.elim
  case collectAny hp _ _ _ _ =>
    rw [hp] at hst
    exact hst.elim
  case await hp hch hfin _ hne =>
    have hq' := isSome_of_awaits ((h.linked c _ hc).2.2 _ (by rw [hp]; rfl)) hch
    rw [hp]
    exact .get hc h₀ hq hp hch (d.cells _ _ hch).right hq' (Stage.eq_final hfin) hne

theorem launch_cases (d : Marked direct marks s₁) (h : Holding s₁ [.coro c])
    (hc : s₁.cells[c]? = some (.launch reschedule child callback awaiting))
    (hs : LaunchStep s₁ t c env child reschedule callback awaiting s₂) :
    DirectStep s₁ t env.accept
      ((Cell.launch reschedule child callback awaiting : Cell ε α ξ θ χ).moment s₁.cells.length c) s₂ := by
  obtain ⟨rfl, rfl, rfl⟩ := d.cells c _ hc
  cases hs
  case schedule e _ hch hn he _ =>
    obtain ⟨_, hp⟩ := Stage.eq_initial ((h.linked 1 _ hch).1 hn)
    exact .launch (p := .queued e none) hc hch hn hp
  case start hch hn _ =>
    obtain ⟨_, hp⟩ := Stage.eq_initial ((h.linked 1 _ hch).1 hn)
    exact .launch (p := .running t) hc hch hn hp
  case deliver hch hfin _ _ =>
    exact .deliver hc hch (isSome_of_awaits (h.awaits_child hc rfl).left hch) (Stage.eq_final hfin)

theorem node_cases (d : Marked direct marks s₁) (h : Holding s₁ [a]) (hf : s₁.fault = none)
    (hs : NodeStep m s₁ t env a s₂) : DirectStep s₁ t env.accept (s₁.momentNode a) s₂ := by
  have hno {q : Nat} {x y : Cell ε α ξ θ χ} (hq : s₁.cells[q]? = some x) (hm : x.Moves y) : False := by
    have hx : x.Direct q := d.cells q x hq
    cases hm <;> exact hx
  cases hs
  case resume hc _  =>
    simp only [Config.momentNode, hc]
    exact .via (p := .running t) hc
  case checkin executor context _ hc =>
    simp only [Config.momentNode, hc]
    exact .via (p := .queued executor (some context)) hc
  case lazy hc hs   =>
    simp only [Config.momentNode, hc]
    exact lazy_cases d h hf hc hs
  case launch hc hs =>
    simp only [Config.momentNode, hc]
    exact launch_cases d h hc hs
  case vector hs    =>
    cases hs
    case schedule hq hm _ _ _ => exact (hno hq hm).elim
    case start hq hm _        => exact (hno hq hm).elim
    case task hq hm _         => exact (hno hq hm).elim
    case resume hm _ hq       => exact (hno hq hm).elim
    case stay hm hq           => exact (hno hq hm).elim
    case leave hm hq          => exact (hno hq hm).elim

end Direct

-- How far a coroutine has come.

def Moment.rank : Moment → Nat
  | awaited     => 1
  | started     => 2
  | transferred => 3
  | resumed     => 4

theorem Moment.rank_inj {a b : Moment} (h : a.rank = b.rank) : a = b := by
  cases a <;> cases b <;> first | rfl | contradiction

def Stage.phase : Stage ε α ξ k → Nat
  | initial _ => 1
  | final     => 3
  | _         => 2

def Cell.phase : Cell ε α ξ θ χ → Nat
  | lazy f    => if f.continuation_.isSome then f.stage.phase else 0
  | destroyed => 4
  | _         => 0

-- The first cell is that of the launched coroutine, which is not awaited.
def Config.phase (s : Config ε α ξ θ χ) (c : Nat) : Nat :=
  if c = 0 then 0 else s.cells[c]?.elim 0 Cell.phase

-- A coroutine has been told about each moment once, up to the one that it has come to.
def Told (s : Config ε α ξ θ χ) (log : List (Moment × Nat)) : Prop :=
  ∀ e, log.count e = if e.1.rank ≤ s.phase e.2 then 1 else 0

namespace Told

variable {log : List (Moment × Nat)}

theorem congr (t : Told s₁ log) (h : ∀ d, s₂.phase d = s₁.phase d) : Told s₂ log := by
  intro e
  rw [h, t e]

theorem snoc (t : Told s₁ log) (a : Moment) (h₁ : s₁.phase c + 1 = a.rank)
    (h₂ : ∀ d, s₂.phase d = if d = c then a.rank else s₁.phase d) : Told s₂ (log ++ [(a, c)]) := by
  intro e
  obtain ⟨b, d⟩ := e
  rw [List.count_append, t, List.count_singleton]
  by_cases hd : d = c
  · subst hd
    by_cases hb : b = a
    · subst hb
      simp only [h₂, beq_self_eq_true, if_true]
      rw [if_neg (by omega), if_pos (Nat.le_refl _)]
    · have hr : b.rank ≠ a.rank := fun h => hb (Moment.rank_inj h)
      have he : ((a, d) == (b, d)) = false := by simpa using Ne.symm hb
      simp only [h₂, if_true, he, Bool.false_eq_true, if_false, Nat.add_zero]
      split <;> split <;> omega
  · have he : ((a, c) == (b, d)) = false := by simp [Ne.symm hd]
    simp only [h₂, hd, he, Bool.false_eq_true, if_false, Nat.add_zero]

end Told

-- How the steps change this.

section Phase

theorem phase_hand : (s.hand p a accept).phase d = s.phase d := by
  cases p
  case queued => cases accept <;> rfl
  all_goals rfl

theorem phase_set (hx : s.cells[c]? = some x) (h : c ≠ 0) :
    (s.set c y).phase d = if d = c then y.phase else s.phase d := by
  simp only [Config.phase, cell_set hx]
  by_cases hd : d = c
  · simp [hd, h]
  · simp [hd]

theorem phase_set_zero (hx : s.cells[0]? = some x) : (s.set 0 y).phase d = s.phase d := by
  by_cases hd : d = 0 <;> simp [Config.phase, cell_set hx, hd]

theorem phase_same (hx : s.cells[c]? = some x) (h : y.phase = x.phase) : (s.set c y).phase d = s.phase d := by
  simp only [Config.phase, cell_set hx]
  by_cases hd : d = c
  · simp [hd, h, hx]
  · simp [hd]

theorem phase_length : s.phase (s.cells.length + n) = 0 := by
  simp [Config.phase]

-- A coroutine is created, maybe after the `ViaCoroutine` that is its continuation.

theorem phase_via (hl : ∀ x ∈ l, x.target.isSome) : (s.append l).phase d = s.phase d := by
  simp only [Config.phase, Config.append, List.getElem?_append]
  by_cases hd : d < s.cells.length
  · simp [hd]
  · cases hx : l[d - s.cells.length]?
    case none   => simp [hd]
    case some x =>
      have := hl x (List.mem_of_getElem? hx)
      cases x <;> simp [Cell.target] at this
      simp [hd, Cell.phase]

theorem phase_append (hs : s.cells.length ≠ 0) (hl : ∀ x ∈ l, x.target.isSome) :
    (s.append (l ++ [y])).phase d = if d = s.cells.length + l.length then y.phase else s.phase d := by
  have he : s.append (l ++ [y]) = (s.append l).add y := by simp [Config.append, Config.add]
  have hn : (s.append l).cells.length = s.cells.length + l.length := List.length_append
  rw [he, ← phase_via (s := s) hl, ← hn]
  simp only [Config.phase, cell_add]
  by_cases hd : d = (s.append l).cells.length
  · simp [hd, hn, hs]
  · simp [hd]

theorem phase_lazy {f : Frame ε α ξ θ k} (hc : s.cells[c]? = some (.lazy f)) (h : c ≠ 0) (hq : f.continuation_.isSome) :
    s.phase c = f.stage.phase := by
  simp [Config.phase, hc, h, Cell.phase, hq]

theorem phase_enter {f g : Frame ε α ξ θ k} {stage : Stage ε α ξ k} (hc : s.cells[c]? = some (.lazy f)) (h : c ≠ 0)
    (hq : g.continuation_.isSome) : (s.enter t c g stage).phase d = if d = c then stage.phase else s.phase d := by
  rw [Config.enter, phase_set hc h]
  simp [Cell.phase, hq]

end Phase

namespace Told

variable {log : List (Moment × Nat)}

theorem step (told : Told s₁ log) (hs : DirectStep s₁ t accept o s₂) : Told s₂ (log ++ o.toList) := by
  cases hs
  case begin hc h₀ hq hp =>
    exact told.snoc .started (by rw [phase_lazy hc h₀ hq, hp]; rfl) fun d => phase_enter hc h₀ hq
  case finish hc h₀ hq hp =>
    exact told.snoc .transferred (by rw [phase_lazy hc h₀ hq, hp]; rfl) fun d => phase_enter hc h₀ hq
  case await hc h₀ hq hp hl =>
    have hlt := Holding.lt_of_getElem? hc
    refine told.snoc .awaited (by rw [phase_length]; rfl) fun d => phase_hand.trans ?_
    exact (phase_same (cell_append hc) (by simp [Cell.phase, hq, hp, Stage.phase])).trans (phase_append (by omega) hl)
  case get hc h₀ hq hp hch h₁ hq' hf hne =>
    refine told.snoc .resumed (by rw [phase_lazy hch h₁ hq', hf]; rfl) fun d => ?_
    refine (phase_set (Holding.getElem?_set hne hch) h₁).trans (congrArg _ ?_)
    exact phase_same hc (by simp [Cell.phase, hq, hp, Stage.phase])
  case via hc =>
    rw [Option.toList_none, List.append_nil]
    exact told.congr fun d => phase_hand.trans (phase_same hc rfl)
  case launch hl hch hq hp =>
    refine told.snoc .awaited (by simp [Config.phase, hch, Cell.phase, hq, Moment.rank]) fun d => phase_hand.trans ?_
    rw [phase_set (Holding.getElem?_set Nat.zero_ne_one hch) Nat.one_ne_zero, phase_set_zero hl]
    simp [Cell.phase, hp, Stage.phase, Moment.rank]
  case deliver hl hch hq hf =>
    refine told.snoc .resumed (by rw [phase_lazy hch Nat.one_ne_zero hq, hf]; rfl) fun d => ?_
    refine (phase_set (Holding.getElem?_set Nat.zero_ne_one hch) Nat.one_ne_zero).trans (congrArg _ ?_)
    exact phase_set_zero (s := s₁) hl

theorem init : Told (m.init : Config ε α ξ θ χ) [] := by
  intro e
  obtain ⟨a, d⟩ := e
  have hp : (m.init : Config ε α ξ θ χ).phase d = 0 := by
    obtain _ | _ | _ := d <;> rfl
  rw [hp, if_neg]
  · rfl
  · cases a <;> simp [Moment.rank]

end Told

-- How many coroutines wait for the result of another one.

def Cell.isWaiting (x : Cell ε α ξ θ χ) : Bool :=
  x.child.isSome

def Config.waiting (s : Config ε α ξ θ χ) : Nat :=
  s.cells.countP Cell.isWaiting

theorem waiting_set (y : Cell ε α ξ θ χ) (hx : s.cells[c]? = some x) :
    (s.set c y).waiting + (if x.isWaiting then 1 else 0) = s.waiting + if y.isWaiting then 1 else 0 :=
  Count.countP_set y hx

theorem waiting_same (hx : s.cells[c]? = some x) (h : y.isWaiting = x.isWaiting) : (s.set c y).waiting = s.waiting := by
  have := waiting_set y hx
  rw [h] at this
  exact Nat.add_right_cancel this

theorem waiting_append (s : Config ε α ξ θ χ) (h : ∀ x ∈ l, x.isWaiting = false) : (s.append l).waiting = s.waiting := by
  simp only [Config.waiting, Config.append, List.countP_append, Nat.add_eq_left, List.countP_eq_zero]
  intro x hx
  simp [h x hx]

theorem waiting_hand : (s.hand p a accept).waiting = s.waiting := by
  cases p
  case queued => cases accept <;> rfl
  all_goals rfl

-- A coroutine that neither begins nor ends to wait, one that begins to, and one that ends to.

theorem waiting_keep {f g : Frame ε α ξ θ k} {p : Stage ε α ξ k} (hc : s.cells[c]? = some (.lazy f))
    (h : f.stage.child = none) (hp : p.child = none) : (s.enter t c g p).waiting = s.waiting := by
  have := waiting_set (.lazy { g with stage := p, thread := some t }) hc
  simpa [Config.enter, Cell.isWaiting, Cell.child, h, hp] using this

theorem waiting_begin {f g : Frame ε α ξ θ k} {p : Stage ε α ξ k} (hc : s.cells[c]? = some (.lazy f))
    (h : f.stage.child = none) (hp : p.child = some q) : (s.enter t c g p).waiting = s.waiting + 1 := by
  have := waiting_set (.lazy { g with stage := p, thread := some t }) hc
  simpa [Config.enter, Cell.isWaiting, Cell.child, h, hp] using this

theorem waiting_end {f g : Frame ε α ξ θ k} {p : Stage ε α ξ k} (hc : s.cells[c]? = some (.lazy f))
    (h : f.stage.child = some q) (hp : p.child = none) : (s.enter t c g p).waiting + 1 = s.waiting := by
  have := waiting_set (.lazy { g with stage := p, thread := some t }) hc
  simpa [Config.enter, Cell.isWaiting, Cell.child, h, hp] using this

-- One whose result is got.
theorem waiting_destroy {f : Frame ε α ξ θ k} (hc : s.cells[c]? = some (.lazy f)) (h : f.stage = .final) :
    (s.destroy c).waiting = s.waiting := by
  refine waiting_same hc ?_
  simp [Cell.isWaiting, Cell.child, h, Stage.child]

-- Those that have been awaited are those whose result has been got, and those that are waited for.
def Paired (s : Config ε α ξ θ χ) (log : List (Moment × Nat)) : Prop :=
  log.countP (·.1 = .awaited) = log.countP (·.1 = .resumed) + s.waiting

namespace Paired

variable {log : List (Moment × Nat)}

theorem congr (p : Paired s₁ log) (h : s₂.waiting = s₁.waiting) : Paired s₂ log :=
  p.trans (by rw [h])

theorem awaited (p : Paired s₁ log) (h : s₂.waiting = s₁.waiting + 1) : Paired s₂ (log ++ [(.awaited, c)]) := by
  simp only [Paired, List.countP_append, List.countP_singleton, decide_true, if_true] at *
  simp only [reduceCtorEq, decide_false, Bool.false_eq_true, if_false]
  omega

theorem resumed (p : Paired s₁ log) (h : s₂.waiting + 1 = s₁.waiting) : Paired s₂ (log ++ [(.resumed, c)]) := by
  simp only [Paired, List.countP_append, List.countP_singleton, decide_true, if_true] at *
  simp only [reduceCtorEq, decide_false, Bool.false_eq_true, if_false]
  omega

theorem other (p : Paired s₁ log) {a : Moment} (ha : a ≠ .awaited) (hr : a ≠ .resumed) (h : s₂.waiting = s₁.waiting) :
    Paired s₂ (log ++ [(a, c)]) := by
  simp only [Paired, List.countP_append, List.countP_singleton, ha, hr, h] at *
  simpa using p

theorem step (p : Paired s₁ log) (hs : DirectStep s₁ t accept o s₂) : Paired s₂ (log ++ o.toList) := by
  cases hs
  case begin hc _ _ hp  => exact p.other (by simp) (by simp) (waiting_keep hc (by rw [hp]; rfl) rfl)
  case finish hc _ _ hp => exact p.other (by simp) (by simp) (waiting_keep hc (by rw [hp]; rfl) rfl)
  case await hc _ _ hp hl =>
    refine p.awaited (waiting_hand.trans ((waiting_begin (cell_append hc) (by rw [hp]; rfl) rfl).trans (congrArg (· + 1) ?_)))
    refine waiting_append _ fun x hx => ?_
    obtain hx | hx := List.mem_append.mp hx
    case inr => cases List.mem_singleton.mp hx; rfl
    case inl =>
      have := hl x hx
      cases x <;> simp [Cell.target] at this
      rfl
  case get hc _ _ hp hch _ _ hf hne =>
    refine p.resumed ((congrArg (· + 1) (waiting_destroy (Holding.getElem?_set hne hch) hf)).trans ?_)
    exact waiting_end hc (by rw [hp]; rfl) rfl
  case via hc =>
    rw [Option.toList_none, List.append_nil]
    exact p.congr (waiting_hand.trans (waiting_same hc rfl))
  case launch hl hch _ hp =>
    refine p.awaited (waiting_hand.trans ((waiting_same (Holding.getElem?_set Nat.zero_ne_one hch) ?_).trans ?_))
    · rfl
    · exact waiting_set (.launch _ 1 .caller true) hl
  case deliver hl hch _ hf =>
    refine p.resumed ((congrArg (· + 1) (waiting_destroy (Holding.getElem?_set Nat.zero_ne_one hch) hf)).trans ?_)
    exact waiting_set (s := s₁) .destroyed hl

theorem init : Paired (m.init : Config ε α ξ θ χ) [] := by
  simp [Paired, Config.waiting, Setup.init, Cell.isWaiting, Cell.child, Frame.new, Stage.child]

end Paired

-- The only piece of code that can go on is in a token, unless an executor has refused it, or the caller has
-- got the result.
def Config.load (s : Config ε α ξ θ χ) : Nat :=
  s.tokens.length + s.refused.length + s.delivered.length

theorem load_put : (s.put p a).load = s.load + 1 := by
  simp only [Config.load, Config.put, List.length_append, List.length_singleton]
  omega

theorem load_take (h : s.tokens[i]? = some tok) : (s.take i).load + 1 = s.load := by
  have hi := Holding.lt_of_getElem? h
  simp only [Config.load, Config.take, List.length_eraseIdx_of_lt hi]
  omega

theorem load_hand : (s.hand p a accept).load = s.load + 1 := by
  cases p
  case running  => exact load_put
  case external => exact load_put
  case queued   =>
    cases accept
    case true  => exact load_put
    case false =>
      simp only [Config.load, Config.hand, Config.submit, List.length_append, List.length_singleton, Bool.false_eq_true, if_false]
      omega

theorem load_step (hs : DirectStep s₁ t accept o s₂) : s₂.load = s₁.load + 1 := by
  cases hs
  case begin   => exact load_put
  case finish  => exact load_put
  case await   => exact load_hand
  case get     => exact load_put
  case via     => exact load_hand
  case launch  => exact load_hand
  case deliver =>
    simp only [Config.load, Config.destroy, Config.set, List.length_append, List.length_singleton]
    omega

namespace Direct

variable {log : List (Moment × Nat)}

-- A step of the system runs a piece of code, or moves one to a thread, of which no coroutine is told.
theorem step_cases (code : Code ε α ξ m.kind) (hp : m.program = code.body) (hm : m.reschedule → m.executor_.isSome)
    (h : m.system.Reachable s₁) (hs : m.system.step s₁ a = some s₂) :
    ∃ i tok, s₁.tokens[i]? = some tok ∧
      (s₁.moment a = none ∧ (∃ t, s₂ = (s₁.take i).put (.running t) tok.node) ∨
        ∃ t accept, DirectStep (s₁.take i) t accept (s₁.moment a) s₂) := by
  have hn (s : Config ε α ξ θ χ) (h : m.system.Reachable s) : s.fault = none :=
    Keeps.fault_eq_none (hp ▸ code.ensures (Q := fun _ => True) trivial) hm h
  have hf₂ := hn _ (h.step hs)
  obtain ⟨hf, hs⟩ := Setup.step_cases hs
  cases hs
  case run ht _      => exact ⟨_, _, ht, .inl ⟨rfl, _, rfl⟩⟩
  case fail          => contradiction
  case step ht hs _  =>
    obtain ⟨_, d⟩ := reachable code hp h
    have hd := node_cases d.take ((Inv.reachable h).holding.take ht) hf
      (((Wired.reachable h).step_cases (.reachable h) hf ht hs).right hf₂)
    simp only [Config.moment, ht]
    exact ⟨_, _, ht, .inr ⟨_, _, hd⟩⟩

theorem told_paired (code : Code ε α ξ m.kind) (hp : m.program = code.body) (hm : m.reschedule → m.executor_.isSome)
    (h : m.history.Reachable (s, log)) : Told s log ∧ Paired s log := by
  suffices ∀ r, m.history.Reachable r → Told r.1 r.2 ∧ Paired r.1 r.2 from this _ h
  intro r hr
  induction hr
  case init => exact ⟨.init, .init⟩
  case step r₁ a r₂ h hs ih =>
    obtain ⟨hs, hl⟩ := System.record_step.mp hs
    obtain ⟨told, paired⟩ := ih
    rw [hl]
    obtain ⟨i, _, _, ⟨hn, _, hs⟩ | ⟨_, _, hs⟩⟩ := step_cases code hp hm h.of_record hs
    · rw [hn, hs, Option.toList_none, List.append_nil]
      exact ⟨told.congr fun _ => rfl, paired.congr rfl⟩
    · have told : Told (r₁.1.take i) r₁.2     := told.congr fun _ => rfl
      have paired : Paired (r₁.1.take i) r₁.2 := paired.congr rfl
      exact ⟨told.step hs, paired.step hs⟩

theorem load_reachable (code : Code ε α ξ m.kind) (hp : m.program = code.body) (hm : m.reschedule → m.executor_.isSome)
    (h : m.system.Reachable s) : s.load = 1 := by
  induction h
  case init          => rfl
  case step h hs ih  =>
    obtain ⟨_, _, ht, ⟨_, _, rfl⟩ | ⟨_, _, hs⟩⟩ := step_cases code hp hm h hs
    · exact load_put.trans ((load_take ht).trans ih)
    · exact (load_step hs).trans ((load_take ht).trans ih)

end Direct

-- The machine agrees with the direct evaluation of the program, which has the outcome `r`. No assertion
-- has failed, what is on a thread can go on, and the caller has not got anything but `r`, from `Start` or
-- from a `SyncAwait` that its assertions let pass. A coroutine is awaited, started, transfers control to its
-- continuation and is resumed from in this order, each at most once. When the executors have run all that
-- they have accepted, then the caller has got `r`, and all that has been awaited has been resumed from, if
-- and only if they have not refused anything.
structure Config.Agrees (m : Setup ε α ξ θ χ) (r : Try ε (Option α)) (s : Config ε α ξ θ χ) (log : List (Moment × Nat)) :
    Prop where
  fault     : s.fault = none
  steps     : ∀ (j : Nat) t n, s.tokens[j]? = some ⟨.running t, n⟩ → ∃ env, env.accept ∧ (m.system.step s (.step j env)).isSome
  delivered : s.delivered = [] ∨ s.delivered = [r]
  returned  : m.callerInExecutor = false → syncAwait (some m) s = none ∨ syncAwait (some m) s = some r.getValue
  awaited   : ∀ c, log.count (.awaited, c) ≤ 1
  ordered   : ∀ c, log.count (.resumed, c) ≤ log.count (.transferred, c) ∧
    log.count (.transferred, c) ≤ log.count (.started, c) ∧ log.count (.started, c) ≤ log.count (.awaited, c)
  finished  : s.tokens = [] →
    ((s.delivered = [r] ∧ ∀ c, log.count (.resumed, c) = log.count (.awaited, c)) ↔ s.refused = [])
  synced    : s.tokens = [] → m.callerInExecutor = false → (syncAwait (some m) s = some r.getValue ↔ s.refused = [])

theorem Told.count_le {log : List (Moment × Nat)} (told : Told s log) (h : a.rank ≤ b.rank) (c : Nat) :
    log.count (b, c) ≤ log.count (a, c) := by
  rw [told, told]
  split
  case isFalse   => exact Nat.zero_le _
  case isTrue hb => rw [if_pos (h.trans hb)]

theorem Inv.waiting_eq_zero (i : Inv s) (hr : s.refused = []) (ht : s.tokens = []) : s.waiting = 0 := by
  rw [Config.waiting, List.countP_eq_zero]
  intro x hm hw
  obtain ⟨c, hx⟩ := List.mem_iff_getElem?.mp hm
  have := i.not_suspended hr ht hx
  cases x <;> simp only [Cell.isWaiting, Cell.child, Cell.isSuspended, Option.isSome_none, Bool.false_eq_true] at hw this
  case lazy f             => cases hp : f.stage <;> simp [hp, Stage.child, Stage.isSuspended] at hw this
  case launch awaiting => simp [this] at hw

-- What `SyncAwait` gives to a caller that it lets wait.
theorem syncAwait_eq (h : m.callerInExecutor = false) : syncAwait (some m) s = s.delivered.head?.map Try.getValue := by
  rw [syncAwait, h]
  rfl

theorem delivered_iff (hl : s.load = 1) (hd : s.delivered = [] ∨ s.delivered = [r]) (ht : s.tokens = []) :
    s.delivered = [r] ↔ s.refused = [] := by
  simp only [Config.load, ht, List.length_nil, Nat.zero_add] at hl
  constructor
  case mp  =>
    intro h
    rw [h, List.length_singleton] at hl
    exact List.eq_nil_of_length_eq_zero (by omega)
  case mpr =>
    intro h
    refine hd.resolve_left fun hd => ?_
    simp [h, hd] at hl

theorem agrees (code : Code ε α ξ m.kind) (hp : m.program = code.body) (hm : m.reschedule → m.executor_.isSome) :
    (∀ s log, m.history.Reachable (s, log) → s.Agrees m code.eval log) ∧ m.system.Terminates := by
  refine ⟨fun s log h => ?_, terminates m⟩
  obtain ⟨told, paired⟩ := Direct.told_paired code hp hm h
  replace h : m.system.Reachable s := h.of_record
  have hmeets : s.Meets m (· = code.eval) := meets (hp ▸ code.ensures rfl) hm h
  have i := Inv.reachable h
  have hd : s.delivered = [] ∨ s.delivered = [code.eval] :=
    hmeets.delivered.imp_right fun h => by
      obtain ⟨_, hr, rfl⟩ := h
      exact hr
  have hi := delivered_iff (Direct.load_reachable code hp hm h) hd
  have hle := fun c => told.count_le (a := .awaited) (b := .resumed) (by simp [Moment.rank]) c
  exact {
    fault     := hmeets.fault
    steps     := hmeets.steps
    delivered := hd
    returned  := fun hx => by
      rw [syncAwait_eq hx]
      obtain hd | hd := hd <;> simp [hd]
    awaited   := fun c => by
      rw [told]
      split <;> omega
    ordered   := fun c => ⟨told.count_le (by simp [Moment.rank]) c, told.count_le (by simp [Moment.rank]) c,
      told.count_le (by simp [Moment.rank]) c⟩
    finished  := fun ht => by
      refine ⟨fun h => (hi ht).mp h.left, fun hr => ⟨(hi ht).mpr hr, Count.count_eq_of_countP_eq hle ?_⟩⟩
      rw [paired, i.waiting_eq_zero hr ht, Nat.add_zero]
    synced    := fun ht hx => by
      rw [syncAwait_eq hx, ← hi ht]
      obtain hd | hd := hd <;> simp [hd] }

-- The exception that is thrown after a `RescheduleLazy` on another executor is caught.

def awaitCaught : Code Unit Nat Nat .value :=
  .await (.awaitVia 1 (.coReturn 2) fun _ => .throw (.thrown ()) : Code Unit Nat Nat .void) fun r =>
    .coReturn (if r.hasException then 1 else 0)

def startCaught : Setup Unit Nat Nat Nat Nat where
  executor   := worker
  kind       := .value
  program    := awaitCaught.body
  reschedule := true
  executor_  := some 0
  thread     := 2

def stepCaught : Action Unit Nat Nat :=
  .step 0 ⟨true, .ready, .nothing⟩

theorem agrees_caught : ∃ s log, startCaught.history.Reachable (s, log) ∧ syncAwait (some startCaught) s = some (.ok (some 1)) ∧
    log.map (·.2) = [1, 1, 2, 2, 4, 4, 4, 4, 2, 2, 1, 1] ∧ s.Agrees startCaught awaitCaught.eval log := by
  obtain ⟨⟨s, log⟩, hr, hs⟩ := startCaught.history.exists_reachable
    ([stepCaught, .run 0 0] ++ List.replicate 4 stepCaught ++ [.run 0 1] ++ List.replicate 3 stepCaught ++ [.run 0 0] ++
      List.replicate 5 stepCaught)
    (p := fun r => r.1.delivered = [.value (some 1)] ∧ r.2.map (·.2) = [1, 1, 2, 2, 4, 4, 4, 4, 2, 2, 1, 1]) (by decide)
  simp only [decide_eq_true_eq] at hs
  refine ⟨s, log, hr, ?_, hs.right, (agrees awaitCaught rfl (fun _ => rfl)).left s log hr⟩
  rw [syncAwait_eq rfl, hs.left]
  rfl

def stepRefused : Action Unit Nat Nat :=
  .step 0 ⟨false, .ready, .nothing⟩

-- The executor refuses what `Start` has scheduled, or the `RescheduleLazy` that is awaited, or what the
-- `ViaCoroutine` checks in after it. The coroutine that waits then is resumed after `c`.
def refusals : List (List (Action Unit Nat Nat) × Nat) :=
  [([stepRefused], 1),
    ([stepCaught, .run 0 0] ++ List.replicate 3 stepCaught ++ [stepRefused], 4),
    ([stepCaught, .run 0 0] ++ List.replicate 4 stepCaught ++ [.run 0 1] ++ List.replicate 2 stepCaught ++ [stepRefused], 4)]

-- Nothing is left that can be run, but the caller waits, and `c`, which has been awaited, is not resumed from.
theorem agrees_refused :
    (awaitCaught.eval = .value (some 1)) ∧
    (∀ r ∈ refusals, ∃ s log, startCaught.history.Reachable (s, log) ∧ s.tokens = [] ∧ s.delivered = [] ∧
      syncAwait (some startCaught) s = none ∧ log.count (.awaited, r.2) = 1 ∧ log.count (.resumed, r.2) = 0) ∧
    (∀ s, syncAwait (some { startCaught with thread := 0 }) s =
      some (.error (.logicError "do not sync await in the same executor with Lazy"))) := by
  refine ⟨rfl, fun r h => ?_, fun _ => rfl⟩
  obtain ⟨⟨s, log⟩, hr, hs⟩ := startCaught.history.exists_reachable r.1
    (p := fun q => q.1.tokens.isEmpty ∧ q.1.delivered = [] ∧ q.2.count (.awaited, r.2) = 1 ∧ q.2.count (.resumed, r.2) = 0)
    (by revert r; decide)
  simp only [decide_eq_true_eq, List.isEmpty_iff] at hs
  refine ⟨s, log, hr, hs.left, hs.right.left, ?_, hs.right.right⟩
  rw [syncAwait_eq rfl, hs.right.left]
  rfl

end Lazy
end AsyncSimple
