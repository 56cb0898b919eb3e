import AsyncSimple.Coro.Theorems.Steps

open Transition

namespace AsyncSimple
namespace Lazy

variable {ε α ξ θ χ μ : Type}

-- What an invariant says about each cell, each token, and what the caller gets. Each cell is given a mark
-- when it is created. What holds with the marks so far still holds with those to come.
structure Marking (ε α ξ θ χ μ : Type) where
  cell       : List μ → Nat → Cell ε α ξ θ χ → Prop
  token      : List μ → Token ξ θ χ → Prop
  result     : Try ε (Option α) → Prop
  destroyed  : cell marks c .destroyed
  cell_mono  : marks <+: marks' → c < marks.length → cell marks c x → cell marks' c x
  token_mono : marks <+: marks' → token marks tok → token marks' tok

-- The invariant holds, also for what executors have refused to queue.
structure Marked (I : Marking ε α ξ θ χ μ) (marks : List μ) (s : Config ε α ξ θ χ) : Prop where
  length    : marks.length = s.cells.length
  cells     : ∀ (c : Nat) x, s.cells[c]? = some x → I.cell marks c x
  tokens    : ∀ tok ∈ s.tokens, I.token marks tok
  refused   : ∀ a ∈ s.refused, ∃ executor context, I.token marks ⟨.queued executor context, a⟩
  delivered : ∀ r ∈ s.delivered, I.result r

-- It holds again, where the new cells have got their marks.
def Carries (I : Marking ε α ξ θ χ μ) (marks : List μ) (s : Config ε α ξ θ χ) : Prop :=
  ∃ marks', marks <+: marks' ∧ Marked I marks' s

theorem getElem?_mono {l l' : List β} {v : β} {i : Nat} (hl : l <+: l') (h : l[i]? = some v) : l'[i]? = some v := by
  obtain ⟨hi, rfl⟩ := List.getElem?_eq_some_iff.mp h
  exact List.prefix_iff_getElem?.mp hl i hi

namespace Marked

variable {I : Marking ε α ξ θ χ μ} {marks marks' : List μ} {s s₁ s₂ : Config ε α ξ θ χ} {x y : Cell ε α ξ θ χ}

theorem carries (k : Marked I marks s) : Carries I marks s :=
  ⟨marks, List.prefix_rfl, k⟩

theorem fail (k : Marked I marks s) : Marked I marks (s.fail fault) where
  length    := k.length
  cells     := k.cells
  tokens    := k.tokens
  refused   := k.refused
  delivered := k.delivered

theorem put (k : Marked I marks s) (h : I.token marks ⟨p, a⟩) : Marked I marks (s.put p a) where
  length       := k.length
  cells        := k.cells
  tokens tok ht := by
    obtain ht | ht := List.mem_append.mp ht
    case inl => exact k.tokens tok ht
    case inr => exact List.mem_singleton.mp ht ▸ h
  refused      := k.refused
  delivered    := k.delivered

theorem take (k : Marked I marks s) : Marked I marks (s.take i) where
  length       := k.length
  cells        := k.cells
  tokens tok h := k.tokens tok (List.mem_of_mem_eraseIdx h)
  refused      := k.refused
  delivered    := k.delivered

theorem submit (k : Marked I marks s) (h : I.token marks ⟨.queued executor context, a⟩) :
    Marked I marks (s.submit executor context a accept) := by
  cases accept
  case true  => exact k.put h
  case false =>
    refine ⟨k.length, k.cells, k.tokens, fun b hb => ?_, k.delivered⟩
    obtain hb | hb := List.mem_append.mp hb
    case inl => exact k.refused b hb
    case inr => exact List.mem_singleton.mp hb ▸ ⟨executor, context, h⟩

theorem hand (k : Marked I marks s) (h : I.token marks ⟨p, a⟩) : Marked I marks (s.hand p a accept) := by
  cases p
  case queued => exact k.submit h
  all_goals exact k.put h

theorem set (k : Marked I marks s) (hx : s.cells[c]? = some x) (hy : I.cell marks c y) : Marked I marks (s.set c y) where
  length    := by simpa [Config.set] using k.length
  cells d z hz := by
    rw [cell_set hx] at hz
    split at hz
    case isTrue h => cases hz; exact h ▸ hy
    case isFalse  => exact k.cells d z hz
  tokens    := k.tokens
  refused   := k.refused
  delivered := k.delivered

theorem destroy (k : Marked I marks s) (hx : s.cells[c]? = some x) : Marked I marks (s.destroy c) :=
  k.set hx I.destroyed

-- New cells get their marks.
theorem append (k : Marked I marks s) {l : List (Cell ε α ξ θ χ)} {ms : List μ} (hl : ms.length = l.length)
    (hy : ∀ (i : Nat) y, l[i]? = some y → I.cell (marks ++ ms) (marks.length + i) y) : Marked I (marks ++ ms) (s.append l) where
  length       := by simp [Config.append, k.length, hl]
  cells d z hz := by
    simp only [Config.append, List.getElem?_append] at hz
    split at hz
    case isTrue hd  => exact I.cell_mono (List.prefix_append ..) (k.length ▸ hd) (k.cells d z hz)
    case isFalse hd =>
      have := hy _ z hz
      rwa [k.length, Nat.add_sub_cancel' (Nat.not_lt.mp hd)] at this
  tokens tok h := I.token_mono (List.prefix_append ..) (k.tokens tok h)
  refused a h  := by
    obtain ⟨executor, context, h⟩ := k.refused a h
    exact ⟨executor, context, I.token_mono (List.prefix_append ..) h⟩
  delivered    := k.delivered

-- The caller gets a result.
theorem deliver (k : Marked I marks s) (hr : I.result r) : Marked I marks { s with delivered := s.delivered ++ [r] } where
  length       := k.length
  cells        := k.cells
  tokens       := k.tokens
  refused      := k.refused
  delivered r' h := by
    obtain h | h := List.mem_append.mp h
    case inl => exact k.delivered r' h
    case inr => exact List.mem_singleton.mp h ▸ hr

end Marked

namespace Marking

-- A coroutine on thread `t` is, after each way in which it may go on, what the invariant says, and so is what
-- it has created or is to be run.
structure Execs (I : Marking ε α ξ θ χ μ) (m : Setup ε α ξ θ χ) (marks : List μ) (t : θ) (c : Nat) (f : Frame ε α ξ θ k)
    (body : Body ε α ξ k) : Prop where
  finish  : ∀ {result}, body.Ends f.result result → I.cell marks c (.lazy ({ f with result }.enter t .final))
  proceed : ∀ {body'}, body.Goes m t f.executor_ body' → I.cell marks c (.lazy (f.enter t (.running body')))
  leave   : ∀ {e body'}, body.Leaves f.executor_ e body' →
    I.cell marks c (.lazy (f.enter t (.suspended body'))) ∧ I.token marks ⟨.queued e none, .coro c⟩
  await   : ∀ {l stage p a}, body.Awaits m t c f marks.length l stage p a → ∃ ms : List μ, ms.length = l.length ∧
    I.cell (marks ++ ms) c (.lazy (f.enter t stage)) ∧ I.token (marks ++ ms) ⟨p, a⟩ ∧
    ∀ (i : Nat) y, l[i]? = some y → I.cell (marks ++ ms) (marks.length + i) y

-- Each step of the coroutines that are `ok`, and of all other cells, keeps the invariant: it holds of the cells
-- that the step changes or creates, and of the code that is to be run after it.
structure Sound (I : Marking ε α ξ θ χ μ) (m : Setup ε α ξ θ χ) (ok : Nat → Prop) : Prop where
  begin : ∀ {marks k} {f : Frame ε α ξ θ k} {c t body}, ok c → I.cell marks c (.lazy f) → f.alive →
    f.stage.body = some body → I.cell marks c (.lazy (f.enter t (.running body)))
  external : ∀ {marks k} {f : Frame ε α ξ θ k} {c t g}, ok c → I.cell marks c (.lazy f) → f.alive →
    f.stage = .external g → ∀ r, I.cell marks c (.lazy (f.enter t (.running (g r))))
  await : ∀ {marks k k'} {f : Frame ε α ξ θ k} {f' : Frame ε α ξ θ k'} {c t child g r}, ok c → I.cell marks c (.lazy f) →
    f.alive → f.stage = .awaiting child g → I.cell marks child (.lazy f') → f'.stage.isFinal → f'.result.tryResult = some r →
    I.cell marks c (.lazy (f.enter t (.running (g r))))
  collectAll : ∀ {marks k k'} {f : Frame ε α ξ θ k} {c t q n g} {children : Fin n → Body ε α ξ k'} {reschedule setup state v},
    ok c → I.cell marks c (.lazy f) → f.alive → f.stage = .collectAll q g →
    I.cell marks q (.collectAll reschedule children setup state) → (∀ i, state.produced i = some (v i)) →
    I.cell marks c (.lazy (f.enter t (.running (g (List.ofFn v)))))
  collectAny : ∀ {marks k k'} {f : Frame ε α ξ θ k} {c t q n g} {children : Fin n → Body ε α ξ k'} {reschedule setup state r}
    {i : Fin n}, ok c → I.cell marks c (.lazy f) → f.alive → f.stage = .collectAny q g →
    I.cell marks q (.collectAny reschedule children setup state) → state.produced i = some r →
    I.cell marks c (.lazy (f.enter t (.running (g ⟨some i, r⟩))))
  exec : ∀ {marks k} {f : Frame ε α ξ θ k} {c t body}, ok c → c < marks.length → I.cell marks c (.lazy f) → f.alive →
    f.stage = .running body → I.token marks ⟨.running t, .coro c⟩ → I.Execs m marks t c f body
  via : ∀ {marks c context continuation}, I.cell marks c (.via context continuation false) →
    I.cell marks c (.via context continuation true)
  launch : ∀ {marks l reschedule child callback}, I.cell marks l (.launch reschedule child callback false) →
    I.cell marks l (.launch reschedule child callback true)
  child : ∀ {marks k} {f : Frame ε α ξ θ k} {l reschedule child callback} thread, l < marks.length →
    I.cell marks l (.launch reschedule child callback false) → I.cell marks child (.lazy f) →
    f.continuation_ = none → I.cell marks child (.lazy { f with continuation_ := some l, thread })
  deliver : ∀ {marks k} {f : Frame ε α ξ θ k} {l reschedule child r}, I.cell marks l (.launch reschedule child .caller true) →
    I.cell marks child (.lazy f) → f.stage.isFinal → f.result.tryResult = some r → I.result r
  complete : ∀ {marks k} {f : Frame ε α ξ θ k} {l reschedule child q j r x y},
    I.cell marks l (.launch reschedule child (.child q j) true) → I.cell marks child (.lazy f) → f.stage.isFinal →
    f.result.tryResult = some r → I.cell marks q x → x.Completes j r y → I.cell marks q y
  moves : ∀ {marks q x y}, I.cell marks q x → x.Moves y → I.cell marks q y
  start : ∀ {marks k q x reschedule j executor t} {child : Body ε α ξ k}, q < marks.length → I.cell marks q x →
    x.Child reschedule j executor child → (∃ a : Node, a.id = q ∧ I.token marks ⟨.running t, a⟩) → ∃ m₁ m₂,
    I.cell (marks ++ [m₁, m₂]) marks.length (.launch reschedule (marks.length + 1) (.child q j) false) ∧
    I.cell (marks ++ [m₁, m₂]) (marks.length + 1) (.lazy (.new child executor none none)) ∧
    I.token (marks ++ [m₁, m₂]) ⟨.running t, .coro marks.length⟩
  run : ∀ {marks p a t}, I.token marks ⟨p, a⟩ → m.Runs t p → I.token marks ⟨.running t, a⟩
  next : ∀ {marks a x n t}, I.cell marks a.id x → x.target = none → x.next = some n → I.token marks ⟨.running t, a⟩ →
    I.token marks ⟨.running t, n⟩
  resume : ∀ {marks c context continuation t}, I.cell marks c (.via context continuation false) →
    (∀ x ∈ context, (m.executor x.1).prompt t x.2) → I.token marks ⟨.running t, .coro continuation⟩
  checkin : ∀ {marks c executor context continuation}, I.cell marks c (.via (some (executor, context)) continuation false) →
    I.token marks ⟨.queued executor (some context), .coro continuation⟩
  schedule : ∀ {marks k} {f : Frame ε α ξ θ k} {l child callback e}, I.cell marks l (.launch true child callback false) →
    I.cell marks child (.lazy f) → f.executor_ = some e → I.token marks ⟨.queued e none, .coro child⟩
  launched : ∀ {marks k} {f : Frame ε α ξ θ k} {l child callback t}, I.cell marks l (.launch false child callback false) →
    I.cell marks child (.lazy f) → I.token marks ⟨.running t, .coro l⟩ → I.token marks ⟨.running t, .coro child⟩
  queue : ∀ {marks k q n j reschedule setup state e} {children : Fin n → Body ε α ξ k}, q < marks.length →
    I.cell marks q (.collectAll reschedule children setup state) → setup.para → setup.executor = some e →
    I.token marks ⟨.queued e none, .child q j⟩

variable {I : Marking ε α ξ θ χ μ} {marks : List μ} {x y z : Cell ε α ξ θ χ} {i : Nat}

-- The cells that are created at a time, and their marks.

theorem getElem?_pair {l : List β} {v w : β} : (l ++ [v, w])[l.length + 1]? = some w := by
  simp

theorem single (hx : I.cell marks n x) (h : [x][i]? = some z) : I.cell marks (n + i) z := by
  cases i <;> cases h
  exact hx

theorem pair (hx : I.cell marks n x) (hy : I.cell marks (n + 1) y) (h : [x, y][i]? = some z) : I.cell marks (n + i) z := by
  obtain _ | _ | i := i <;> cases h
  case zero      => exact hx
  case succ.zero => exact hy

end Marking

namespace Marked

variable {I : Marking ε α ξ θ χ μ} {m : Setup ε α ξ θ χ} {ok : Nat → Prop} {marks : List μ}
  {s₁ s₂ : Config ε α ξ θ χ} {env : Env ε α}

-- A coroutine whose stage changes goes on, where it is.
theorem proceed {f : Frame ε α ξ θ k} {body : Body ε α ξ k} (k : Marked I marks s₁) (hc : s₁.cells[c]? = some (.lazy f))
    (hy : I.cell marks c (.lazy (f.enter t (.running body)))) (ht : I.token marks ⟨.running t, .coro c⟩) :
    Marked I marks (s₁.proceed t c f body) :=
  (k.set hc hy).put ht

theorem lt (k : Marked I marks s₁) (hc : s₁.cells[c]? = some x) : c < marks.length :=
  k.length ▸ Holding.lt_of_getElem? hc

theorem exec {f : Frame ε α ξ θ k} (k : Marked I marks s₁) (hc : s₁.cells[c]? = some (.lazy f))
    (o : I.Execs m marks t c f body) (ht : I.token marks ⟨.running t, .coro c⟩)
    (hn : ∀ q, f.continuation_ = some q → I.token marks ⟨.running t, .coro q⟩) (hs : ExecStep m s₁ t c env f body s₂) :
    Carries I marks s₂ := by
  cases hs
  case finish hb hq => exact ((k.set hc (o.finish hb)).put (hn _ hq)).carries
  case proceed hb   => exact (k.proceed hc (o.proceed hb) ht).carries
  case leave hb     =>
    obtain ⟨hy, ht⟩ := o.leave hb
    exact ((k.set hc hy).submit ht).carries
  case await hb     =>
    obtain ⟨ms, hl, hy, ht, hz⟩ := o.await (k.length ▸ hb)
    exact ⟨_, List.prefix_append .., ((k.append hl hz).set (cell_append hc) hy).hand ht⟩

theorem stepLazy {f : Frame ε α ξ θ k} (k : Marked I marks s₁) (o : I.Sound m ok) (hok : ok c) (ha : f.alive)
    (hc : s₁.cells[c]? = some (.lazy f)) (ht : I.token marks ⟨.running t, .coro c⟩) (hs : LazyStep m s₁ t c env f s₂) :
    Carries I marks s₂ := by
  have hx := k.cells c _ hc
  cases hs
  case begin hp    => exact (k.proceed hc (o.begin hok hx ha hp) ht).carries
  case external hp => exact (k.proceed hc (o.external hok hx ha hp _) ht).carries
  case exec hp hs  =>
    refine k.exec hc (o.exec hok (k.lt hc) hx ha hp ht) ht (fun q hq => ?_) hs
    exact o.next (a := .coro c) hx rfl (by simp [Cell.next, ha, hq]) ht
  case await hp hch hf hr hne =>
    exact ((k.proceed hc (o.await hok hx ha hp (k.cells _ _ hch) hf hr) ht).destroy (Holding.getElem?_set hne hch)).carries
  case collectAll hp hq hr => exact (k.proceed hc (o.collectAll hok hx ha hp (k.cells _ _ hq) hr) ht).carries
  case collectAny hp hq hr hm hne =>
    have k₁ := k.set hq (o.moves (k.cells _ _ hq) hm)
    exact (k₁.proceed (Holding.getElem?_set hne hc) (o.collectAny hok hx ha hp (k.cells _ _ hq) hr) ht).carries

theorem stepLaunch (k : Marked I marks s₁) (o : I.Sound m ok) (hl : s₁.cells[l]? = some (.launch reschedule child callback awaiting))
    (ht : I.token marks ⟨.running t, .coro l⟩) (hs : LaunchStep s₁ t l env child reschedule callback awaiting s₂) :
    Carries I marks s₂ := by
  have hx := k.cells l _ hl
  cases hs
  case schedule hch hf he hne =>
    have hz := k.cells _ _ hch
    refine (submit (set (k.set hl (o.launch hx)) (Holding.getElem?_set hne hch) ?_) (o.schedule hx hz he)).carries
    exact o.child _ (k.lt hl) hx hz hf
  case start hch hf hne =>
    have hz := k.cells _ _ hch
    refine (put (set (k.set hl (o.launch hx)) (Holding.getElem?_set hne hch) ?_) (o.launched hx hz ht)).carries
    exact o.child _ (k.lt hl) hx hz hf
  case deliver hch hf hr hne =>
    have k₁ := (k.deliver (o.deliver hx (k.cells _ _ hch) hf hr)).destroy (c := l) hl
    exact (k₁.destroy (Holding.getElem?_set hne hch)).carries
  case complete hch hf hr hne hq hm hql hqc =>
    have k₁ := k.set hq (o.complete hx (k.cells _ _ hch) hf hr (k.cells _ _ hq) hm)
    have k₂ := (k₁.put (o.next (a := .coro l) hx rfl rfl ht)).destroy (c := l) (Holding.getElem?_set hql hl)
    exact (k₂.destroy (Holding.getElem?_set hne (Holding.getElem?_set hqc hch))).carries

-- `Start` launches a child of a vector.
theorem start {child : Body ε α ξ k} (h : Marked I marks s) (o : I.Sound m ok) (hq : s.cells[q]? = some x)
    (hc : x.Child reschedule j executor child) (ha : a.id = q) (ht : I.token marks ⟨.running t, a⟩) :
    Carries I marks (s.start t reschedule child executor (.child q j)) := by
  obtain ⟨m₁, m₂, hl, hch, ht⟩ := o.start (h.lt hq) (h.cells _ _ hq) hc ⟨a, ha, ht⟩
  have h₁ : Marked I (marks ++ [m₁, m₂])
      (s.append [.launch reschedule (s.cells.length + 1) (.child q j) false, .lazy (.new child executor none none)]) := by
    refine h.append rfl fun i y hy => Marking.pair ?_ hch hy
    exact h.length ▸ hl
  refine ⟨marks ++ [m₁, m₂], List.prefix_append .., ?_⟩
  simp only [Config.start, add_add]
  exact h₁.put (h.length ▸ ht)

theorem stepVector (k : Marked I marks s₁) (o : I.Sound m ok) (ht : I.token marks ⟨.running t, a⟩)
    (hs : VectorStep s₁ t env a s₂) : Carries I marks s₂ := by
  have hmove {q x y} (hq : s₁.cells[q]? = some x) (hm : x.Moves y) : Marked I marks (s₁.set q y) :=
    k.set hq (o.moves (k.cells _ _ hq) hm)
  cases hs
  case schedule hq hm hp he j => exact (((hmove hq hm).put ht).submit (o.queue (k.lt hq) (k.cells _ _ hq) hp he)).carries
  case start hq hm hc         => exact ((hmove hq hm).put ht).start o (cell_set_self hq) (hm.child hc) rfl ht
  case task hq hm hc          => exact (hmove hq hm).start o (cell_set_self hq) (hm.child hc) rfl ht
  case resume hm hn hq        => exact ((hmove hq hm).put (o.next (k.cells _ _ hq) hm.target hn ht)).carries
  case stay hm hq             => exact ((hmove hq hm).put ht).carries
  case leave hm hq            => exact (hmove hq hm).carries

theorem stepNode (k : Marked I marks s₁) (o : I.Sound m ok) (hok : ∀ c, a = .coro c → ok c) (h : Holding s₁ [a])
    (hf : s₁.fault = none) (ht : I.token marks ⟨.running t, a⟩) (hs : NodeStep m s₁ t env a s₂) : Carries I marks s₂ := by
  cases hs
  case lazy hc hs   => exact k.stepLazy o (hok _ rfl) (h.alive hf hc) hc ht hs
  case launch hc hs => exact k.stepLaunch o hc ht hs
  case vector hs    => exact k.stepVector o ht hs
  case resume hc hp =>
    have hx := k.cells _ _ hc
    exact ((k.set hc (o.via hx)).put (o.resume hx hp)).carries
  case checkin hc   =>
    have hx := k.cells _ _ hc
    exact ((k.set hc (o.via hx)).submit (o.checkin hx)).carries

-- The nodes that take a step.
def Steps (ok : Nat → Prop) (s : Config ε α ξ θ χ) : Action ε α θ → Prop
  | .run _ _  => True
  | .step i _ => ∀ tok c, s.tokens[i]? = some tok → tok.node = .coro c → ok c

theorem Steps.all : Steps (fun _ => True) s₁ a := by
  cases a
  case run  => trivial
  case step => exact fun _ _ _ _ => trivial

theorem step (k : Marked I marks s₁) (o : I.Sound m ok) (w : Wired s₁) (i : Inv s₁) (hok : Steps ok s₁ a)
    (h : m.system.step s₁ a = some s₂) : Carries I marks s₂ := by
  obtain ⟨hf, h⟩ := Setup.step_cases h
  cases h
  case run ht hp      => exact (k.take.put (o.run (k.tokens _ (List.mem_of_getElem? ht)) hp)).carries
  case fail           => exact k.fail.carries
  case step ht hs hf₂ =>
    have hs := (w.step_cases i hf ht hs).right hf₂
    exact k.take.stepNode o (fun c hc => hok _ c ht hc) (i.holding.take ht) hf (k.tokens _ (List.mem_of_getElem? ht)) hs

theorem reachable (k : Marked I marks m.init) (o : I.Sound m fun _ => True) (h : m.system.Reachable s) :
    Carries I marks s := by
  induction h
  case init         => exact k.carries
  case step h hs ih =>
    obtain ⟨_, hm, k⟩ := ih
    obtain ⟨_, hm₂, k₂⟩ := k.step o (.reachable h) (.reachable h) .all hs
    exact ⟨_, hm.trans hm₂, k₂⟩

end Marked
end Lazy
end AsyncSimple
