import AsyncSimple.Lib.Count
import AsyncSimple.Coro.Awaiting
import AsyncSimple.Coro.Theorems.CollectAllWindowed

open Transition

namespace AsyncSimple

namespace CollectAllAwaiter

variable {n : Nat} {ε α κ ξ : Type} {m : Setup n κ ξ} {s₁ s₂ : Config n ε α κ ξ}

-- A step other than the completion of a child.
def Action.internal : Action n ε α → Bool
  | complete _ _ => false
  | _            => true

theorem Inv.started_iff (i : Inv m s) (j : Fin n) : s.child j ≠ .notStarted ↔ j < s.launched := by
  rw [ne_eq, i.launched j, Config.launched]
  omega

theorem internal_same (i : Inv m s₁) (ha : a.internal) (h : m.system.step s₁ a = some s₂) :
    Same s₁ s₂ ∧ s₁.launched ≤ s₂.launched := by
  cases a
  case complete => contradiction
  case starter =>
    obtain ⟨hs, hl⟩ := stepStarter_same i h
    refine ⟨hs, ?_⟩
    rw [hl]
    cases hp : s₁.starter <;> simp [Config.launched, StarterPc.next, hp]
  case runTask =>
    obtain ⟨hs, hst⟩ := runTask_same h
    exact ⟨hs, by rw [Config.launched, Config.launched, hst]⟩
  case child =>
    obtain ⟨hs, hst⟩ := stepChild_same h
    exact ⟨hs, by rw [Config.launched, Config.launched, hst]⟩

theorem Inv.started_step (i : Inv m s₁) (h : m.system.step s₁ a = some s₂) (hj : s₁.child j ≠ .notStarted) :
    s₂.child j ≠ .notStarted := by
  have hl : s₁.launched ≤ s₂.launched := by
    cases ha : a.internal
    case true => exact (internal_same i ha h).right
    case false =>
      cases a <;> simp only [Action.internal, reduceCtorEq] at ha
      rw [Config.launched, Config.launched, (complete_some h).2.2.2]
  rw [i.started_iff] at hj
  rw [(i.step h).started_iff]
  omega

end CollectAllAwaiter

namespace Awaiting

open Lazy (Kind Slot)

variable {n : Nat} {ε α ξ : Type}

-- The result of a child that sees this executor.
def Child.outcome (c : Child ε α ξ) (executor : Option ξ) : Try ε (Option α) :=
  .makeTryCall ((c.body executor).map Kind.toOption)

-- The executor that a child sees.
def Setup.seenBy (m : Setup n ε α ξ) (w : Way) (i : Fin n) : Option ξ :=
  match w with
  | .vector => (m.child i).executor_.or m.executor
  | _       => m.executor

theorem tryResult_finish {k : Kind} (r : Except (Exception ε) (k.Value α)) :
    ((Slot.empty k).finish r).tryResult = some (.makeTryCall (r.map Kind.toOption)) := by
  cases k <;> cases r <;> rfl

theorem assign_outcome {c : Child ε α ξ} :
    c.kind.assign c.kind.newTry (c.outcome x).getValue = c.outcome x := by
  obtain ⟨k, _, body⟩ := c
  cases k <;> simp only [Child.outcome, Try.getValue_makeTryCall] <;> cases body x <;> rfl

variable {m : Setup n ε α ξ} {w : Way} {s s₁ s₂ : Config m} {i : Fin n}

namespace Config

-- What is known about a child that sees executor `x`.
def Known (s : Config m) (w : Way) (i : Fin n) (x : Option ξ) : Phase ε α ξ (m.child i).kind → Prop
  | .initial   => s.results i = (m.child i).kind.newTry
  | .running   => s.results i = (m.child i).kind.newTry ∧ s.executor_ i = x
  | .looked y  => s.results i = (m.child i).kind.newTry ∧ s.seen i = some x ∧ y = x
  | .final r   =>
    s.results i = (m.child i).kind.newTry ∧ s.seen i = some x ∧ r.tryResult = some ((m.child i).outcome x)
  | .destroyed => s.seen i = some x ∧ (w ≠ .vector → s.results i = (m.child i).outcome x)

def Started (s : Config m) (w : Way) (i : Fin n) : Prop :=
  match w with
  | .oneByOne => i ≤ s.next
  | _         => s.awaiter.child i ≠ .notStarted

def Completed (s : Config m) (w : Way) (i : Fin n) : Prop :=
  match w with
  | .oneByOne => i < s.next
  | _         => (s.awaiter.child i).completed

theorem Known.congr {p : Phase ε α ξ (m.child i).kind} (h : s₁.Known w i x p)
    (hr : s₂.results i = s₁.results i) (hs : s₂.seen i = s₁.seen i)
    (he : p = .running → s₂.executor_ i = s₁.executor_ i) : s₂.Known w i x p := by
  cases p <;> simp only [Known, hr, hs]
  case running => exact ⟨h.left, (he rfl).trans h.right⟩
  all_goals exact h

theorem phase_setPhase (p : Phase ε α ξ (m.child i).kind) :
    (s.setPhase i p).phase = Function.update s.phase i p := rfl

end Config

structure Inv (w : Way) (s : Config m) : Prop where
  known     : ∀ i, s.Known w i (m.seenBy w i) (s.phase i)
  started   : ∀ i, s.phase i ≠ .initial → s.Started w i
  completed : ∀ i, s.Completed w i ↔ s.phase i = .destroyed
  awaiter   : (m.awaiter w).system.Reachable s.awaiter
  next      : s.next ≤ n
  input     : w = .vector → s.executor_ = s.awaiter.input
  produced  : w = .vector → ∀ i t, s.awaiter.produced i = some t → t = (m.child i).outcome (m.seenBy w i)

namespace Inv

theorem init : Inv w (m.init w) where
  known _     := rfl
  started _ h := absurd rfl h
  completed _ := by
    cases w <;> simp [Config.Completed, Setup.init, CollectAllAwaiter.Setup.init, CollectAllAwaiter.ChildPc.completed]
  awaiter     := .init
  next        := Nat.zero_le _
  input h     := by subst h; rfl
  produced _  := nofun

-- The awaiter of a vector has bound the children that it has started, and that of the wrapper tasks these.
theorem bound (h : Inv w s) (hs : s.awaiter.child i ≠ .notStarted) : s.awaiter.input i = m.seenBy w i := by
  rw [(CollectAllAwaiter.Bound.reachable h.awaiter).child i hs]
  cases w <;> rfl

-- A child that is not at its end reaches another phase.
theorem advance {p : Phase ε α ξ (m.child i).kind} {executor_ : Fin n → Option ξ} {seen : Fin n → Option (Option ξ)}
    (h : Inv w s) (hd : s.phase i ≠ .destroyed) (hp : p ≠ .destroyed) (hs : s.Started w i)
    (he : w = .vector → executor_ = s.executor_)
    (hj : ∀ j, j ≠ i → executor_ j = s.executor_ j ∧ seen j = s.seen j)
    (hk : { s with executor_, seen }.Known w i (m.seenBy w i) p) :
    Inv w ({ s with executor_, seen }.setPhase i p) where
  known j := by
    by_cases hi : j = i
    case pos =>
      subst hi
      rw [Config.phase_setPhase, Function.update_self]
      exact hk.congr rfl rfl fun _ => rfl
    case neg =>
      rw [Config.phase_setPhase, Function.update_of_ne hi]
      exact (h.known j).congr rfl (hj j hi).right fun _ => (hj j hi).left
  started j hj := by
    by_cases hi : j = i
    case pos => exact hi ▸ hs
    case neg => exact h.started j (by simpa [Config.setPhase, hi] using hj)
  completed j := by
    refine (h.completed j).trans ?_
    by_cases hi : j = i
    case pos =>
      subst hi
      simp [Config.setPhase, hd, hp]
    case neg => simp [Config.setPhase, hi]
  awaiter    := h.awaiter
  next       := h.next
  input hw   := (he hw).trans (h.input hw)
  produced   := h.produced

theorem await (h : Inv w s₁) (e : m.await w s₁ i = some s₂) : Inv w s₂ := by
  have start (x : Option ξ) (hp : s₁.phase i = .initial) (hs : s₁.Started w i) (hx : x = m.seenBy w i)
      (he : w = .vector → x = s₁.executor_ i) : Inv w (s₁.start i x) := by
    refine h.advance (by simp [hp]) nofun hs (fun hw => ?_) (fun j hj => ⟨Function.update_of_ne hj .., rfl⟩) ?_
    · rw [he hw, Function.update_eq_self]
    · have := h.known i
      rw [hp] at this
      exact ⟨this, by simpa using hx⟩
  simp only [Setup.await] at e
  split at e <;> try contradiction
  case h_1 hp hc =>
    cases e
    have hc : s₁.awaiter.child i ≠ .notStarted := by simp [hc]
    exact start _ hp hc (by rw [h.input rfl, h.bound hc]) fun _ => rfl
  case h_2 hp hc =>
    cases e
    have hc : s₁.awaiter.child i ≠ .notStarted := by simp [hc]
    exact start _ hp hc (h.bound hc) nofun
  case h_3 hp =>
    split at e <;> cases e
    case isTrue hn => exact start _ hp hn.ge rfl nofun

theorem look (h : Inv w s₁) (e : Setup.look s₁ i = some s₂) : Inv w s₂ := by
  simp only [Setup.look] at e
  split at e <;> cases e
  case h_1 hp =>
    have hk := h.known i
    rw [hp] at hk
    refine h.advance (by simp [hp]) nofun (h.started i (by simp [hp])) (fun _ => rfl)
      (fun j hj => ⟨rfl, Function.update_of_ne hj ..⟩) ?_
    exact ⟨hk.left, by simp [hk.right], hk.right⟩

theorem finish (h : Inv w s₁) (e : Setup.finish s₁ i = some s₂) : Inv w s₂ := by
  simp only [Setup.finish] at e
  split at e <;> cases e
  case h_1 hp =>
    have hk := h.known i
    rw [hp] at hk
    obtain ⟨hr, hs, rfl⟩ := hk
    exact h.advance (by simp [hp]) nofun (h.started i (by simp [hp])) (fun _ => rfl) (fun j hj => ⟨rfl, rfl⟩)
      ⟨hr, hs, tryResult_finish _⟩

theorem internal {a : CollectAllAwaiter.Action n ε (Option α)} {awaiter : CollectAllAwaiter.Config n ε (Option α) Unit ξ}
    {executor_ : Fin n → Option ξ} (h : Inv w s) (hw : w ≠ .oneByOne) (ha : a.internal)
    (e : (m.awaiter w).system.step s.awaiter a = some awaiter) (hv : w = .vector → executor_ = awaiter.input)
    (hn : w ≠ .vector → executor_ = s.executor_) : Inv w { s with awaiter, executor_ } := by
  have hi := CollectAllAwaiter.Inv.reachable h.awaiter
  have same := (CollectAllAwaiter.internal_same hi ha e).left
  have started (j) (hj : s.phase j ≠ .initial) : { s with awaiter, executor_ }.Started w j := by
    have := h.started j hj
    cases w
    case oneByOne => contradiction
    all_goals exact hi.started_step e this
  refine ⟨fun j => ?known, started, fun j => ?completed, h.awaiter.step e, h.next, hv, fun hw j t ht => ?produced⟩
  case known =>
    refine (h.known j).congr rfl rfl fun hp => ?_
    by_cases hvec : w = .vector
    case neg => exact congrFun (hn hvec) j
    case pos =>
      have hk := h.known j
      have hs := started j (by simp [hp])
      rw [hp] at hk
      subst hvec
      dsimp only
      rw [hv rfl, hk.right, (CollectAllAwaiter.Bound.reachable (h.awaiter.step e)).child j hs]
      rfl
  case completed =>
    refine Iff.trans ?_ (h.completed j)
    cases w
    case oneByOne => contradiction
    all_goals simp only [Config.Completed, same.completed]
  case produced => exact h.produced hw j t (by rwa [← same.produced])

theorem stepAwaiter {a : CollectAllAwaiter.Action n ε (Option α)} (h : Inv w s₁) (ha : a.internal)
    (e : m.stepAwaiter w s₁ a = some s₂) : Inv w s₂ := by
  cases w
  case oneByOne => contradiction
  case vector =>
    obtain ⟨awaiter, hs, rfl⟩ := Option.map_eq_some_iff.mp e
    exact h.internal (by simp) ha hs (fun _ => rfl) (by simp)
  case variadic =>
    obtain ⟨awaiter, hs, rfl⟩ := Option.map_eq_some_iff.mp e
    exact h.internal (by simp) ha hs (by simp) fun _ => rfl

-- The coroutine, or a wrapper task, has got the outcome of a child, which is destroyed.
theorem take {s' : Config m} (h : Inv w s) (hf : s.phase i = .final r)
    (hp : s'.phase = Function.update s.phase i .destroyed) (hs : s'.seen = s.seen) (he : s'.executor_ = s.executor_)
    (hr : ∀ j, j ≠ i → s'.results j = s.results j)
    (hi : w ≠ .vector → s'.results i = (m.child i).outcome (m.seenBy w i))
    (started : ∀ j, s.Started w j → s'.Started w j) (completed : ∀ j, s'.Completed w j ↔ j = i ∨ s.Completed w j)
    (awaiter : (m.awaiter w).system.Reachable s'.awaiter) (next : s'.next ≤ n)
    (input : w = .vector → s'.awaiter.input = s.awaiter.input)
    (produced : w = .vector → ∀ t, s'.awaiter.produced i = some t → t = (m.child i).outcome (m.seenBy w i))
    (others : ∀ j, j ≠ i → s'.awaiter.produced j = s.awaiter.produced j) : Inv w s' := by
  have hk := h.known i
  rw [hf] at hk
  have phase (j) (hj : j ≠ i) : s'.phase j = s.phase j := by rw [hp, Function.update_of_ne hj]
  refine ⟨fun j => ?known, fun j hj => started j ?started, fun j => (completed j).trans ?completed, awaiter, next,
    fun hw => by rw [he, h.input hw, input hw], fun hw j t ht => ?produced⟩
  case known =>
    by_cases hji : j = i
    case pos =>
      subst hji
      rw [hp, Function.update_self]
      exact ⟨hs ▸ hk.right.left, hi⟩
    case neg => exact phase j hji ▸ (h.known j).congr (hr j hji) (by rw [hs]) fun _ => by rw [he]
  case started =>
    by_cases hji : j = i
    case pos =>
      subst hji
      exact h.started j (by simp [hf])
    case neg => exact h.started j (phase j hji ▸ hj)
  case completed =>
    by_cases hji : j = i
    case pos =>
      subst hji
      simp [hp]
    case neg => rw [phase j hji, ← h.completed j, or_iff_right hji]
  case produced =>
    by_cases hji : j = i
    case pos =>
      subst hji
      exact produced hw t ht
    case neg => exact h.produced hw j t (others j hji ▸ ht)

theorem resume (h : Inv w s₁) (e : m.resume w s₁ i = some s₂) : Inv w s₂ := by
  simp only [Setup.resume] at e
  split at e <;> try contradiction
  case h_1 r hf =>
    have hk := h.known i
    have hi := CollectAllAwaiter.Inv.reachable h.awaiter
    rw [hf] at hk
    obtain ⟨hr, hs, ht⟩ := hk
    rw [ht, Option.bind_some] at e
    have assigned : (m.child i).kind.assign (s₁.results i) ((m.child i).outcome (m.seenBy w i)).getValue =
        (m.child i).outcome (m.seenBy w i) := by rw [hr, assign_outcome]
    have taken {t : Try ε (Option α)} {awaiter : CollectAllAwaiter.Config n ε (Option α) Unit ξ}
        {s' : Config m} (hw : w ≠ .oneByOne) (hc : CollectAllAwaiter.Setup.complete s₁.awaiter i t = some awaiter)
        (ha : s'.awaiter = awaiter) (hn : s'.next = s₁.next) (hp : s'.phase = Function.update s₁.phase i .destroyed)
        (hs : s'.seen = s₁.seen) (he : s'.executor_ = s₁.executor_)
        (hr : ∀ j, j ≠ i → s'.results j = s₁.results j)
        (hri : w ≠ .vector → s'.results i = (m.child i).outcome (m.seenBy w i))
        (ht : w = .vector → t = (m.child i).outcome (m.seenBy w i)) : Inv w s' := by
      obtain ⟨hcm, _, hpr, _⟩ := CollectAllAwaiter.complete_some hc
      obtain ⟨_, _, _, hin, _⟩ := CollectAllAwaiter.Inv.complete_eq hc
      have hstep : (m.awaiter w).system.step s₁.awaiter (.complete i t) = some awaiter := hc
      refine h.take hf hp hs he hr hri (fun j hj => ?_) (fun j => ?_) (ha ▸ h.awaiter.step hstep) (hn ▸ h.next)
        (fun _ => ha ▸ hin) (fun hw t' ht' => ?_) fun j hj => by rw [ha, hpr, Function.update_of_ne hj]
      · cases w
        case oneByOne => contradiction
        all_goals
          simp only [Config.Started, ha]
          exact hi.started_step hstep hj
      · cases w
        case oneByOne => contradiction
        all_goals simp [Config.Completed, ha, hcm j]
      · rw [ha, hpr, Function.update_self] at ht'
        exact (Option.some.inj ht').symm.trans (ht hw)
    cases w
    case oneByOne =>
      cases e
      have hle : i.val ≤ s₁.next := h.started i (by simp [hf])
      have hlt : ¬ i.val < s₁.next := fun hlt => by simp [(h.completed i).mp hlt] at hf
      refine h.take hf rfl rfl rfl (fun j hj => Function.update_of_ne hj ..) (fun _ => ?_) (fun j hj => ?_)
        (fun j => ?_) h.awaiter ?_ (by simp) (by simp) fun _ _ => rfl
      · exact (Function.update_self ..).trans assigned
      · simp only [Config.Started] at *
        omega
      · simp only [Config.Completed, Fin.ext_iff]
        omega
      · dsimp only
        omega
    case vector =>
      obtain ⟨awaiter, hc, rfl⟩ := Option.map_eq_some_iff.mp e
      refine taken (by simp) hc rfl rfl rfl rfl ?_ (fun _ _ => rfl) (by simp) fun _ => rfl
      rw [h.input rfl]
      exact (CollectAllAwaiter.Inv.complete_eq hc).2.2.2.1
    case variadic =>
      obtain ⟨awaiter, hc, rfl⟩ := Option.map_eq_some_iff.mp e
      exact taken (by simp) hc rfl rfl rfl rfl rfl (fun j hj => Function.update_of_ne hj ..)
        (fun _ => (Function.update_self ..).trans assigned) (by simp)

theorem step (h : Inv w s₁) (e : (m.system w).step s₁ a = some s₂) : Inv w s₂ := by
  cases a
  case starter | runTask | callback => exact h.stepAwaiter rfl e
  case await  => exact h.await e
  case look   => exact h.look e
  case finish => exact h.finish e
  case resume => exact h.resume e

theorem reachable (h : (m.system w).Reachable s) : Inv w s :=
  h.invariant init step

end Inv

-- A bound on the number of steps that are left.

def Phase.rank {k : Kind} : Phase ε α ξ k → Nat
  | .initial   => 4
  | .running   => 3
  | .looked _  => 2
  | .final _   => 1
  | .destroyed => 0

def Config.rank (s : Config m) : Nat :=
  s.awaiter.rank + ∑ i, (s.phase i).rank

theorem rank_lt {p : Phase ε α ξ (m.child i).kind} (hp : s₂.phase = Function.update s₁.phase i p)
    (ha : s₂.awaiter.rank ≤ s₁.awaiter.rank) (hr : p.rank < (s₁.phase i).rank) : s₂.rank < s₁.rank := by
  have := Count.sum_update_of (fun _ p => Phase.rank p) s₁.phase i p
  simp only [Config.rank, hp]
  omega

theorem rank_stepAwaiter (s₁ : Config m) (h : (m.awaiter w).system.Reachable s₁.awaiter) (e : m.stepAwaiter w s₁ a = some s₂) :
    s₂.awaiter.rank < s₁.awaiter.rank ∧ s₂.phase = s₁.phase := by
  cases w
  case oneByOne => contradiction
  all_goals
    obtain ⟨awaiter, hs, rfl⟩ := Option.map_eq_some_iff.mp e
    exact ⟨CollectAllAwaiter.rank_step (.reachable h) hs, rfl⟩

theorem rank_step (h : Inv w s₁) (e : (m.system w).step s₁ a = some s₂) : s₂.rank < s₁.rank := by
  cases a
  case starter | runTask | callback =>
    obtain ⟨ha, hp⟩ := rank_stepAwaiter _ h.awaiter e
    simp only [Config.rank, hp]
    omega
  case await i =>
    have start (x : Option ξ) (hp : s₁.phase i = .initial) : (s₁.start i x).rank < s₁.rank :=
      rank_lt rfl (Nat.le_refl _) (by simp [hp, Phase.rank])
    simp only [Setup.system, Setup.step, Setup.await] at e
    split at e <;> try contradiction
    case h_1 hp _ =>
      cases e
      exact start _ hp
    case h_2 hp _ =>
      cases e
      exact start _ hp
    case h_3 hp =>
      split at e <;> cases e
      exact start _ hp
  case look i =>
    simp only [Setup.system, Setup.step, Setup.look] at e
    split at e <;> cases e
    case h_1 hp => exact rank_lt rfl (Nat.le_refl _) (by simp [hp, Phase.rank])
  case finish i =>
    simp only [Setup.system, Setup.step, Setup.finish] at e
    split at e <;> cases e
    case h_1 hp => exact rank_lt rfl (Nat.le_refl _) (by simp [hp, Phase.rank])
  case resume i =>
    simp only [Setup.system, Setup.step, Setup.resume] at e
    split at e <;> try contradiction
    case h_1 hp =>
      have hr : (Phase.destroyed : Phase ε α ξ (m.child i).kind).rank < (s₁.phase i).rank := by simp [hp, Phase.rank]
      obtain ⟨t, _, e⟩ := Option.bind_eq_some_iff.mp e
      cases w
      case oneByOne =>
        cases e
        exact rank_lt rfl (Nat.le_refl _) hr
      all_goals
        obtain ⟨ha, hp⟩ := rank_stepAwaiter { s₁.setPhase i .destroyed with results := _ } h.awaiter e
        exact rank_lt hp ha.le hr

-- The executor of a child is the one that is expected, and the results are those of the children with these
-- executors.
theorem output_eq (h : Inv w s) (ho : m.output w s = some ts) :
    ts = List.ofFn (fun i => (m.child i).outcome (m.seenBy w i)) ∧ ∀ i, s.seen i = some (m.seenBy w i) := by
  have of_destroyed (hd : ∀ i, s.phase i = .destroyed) :
      (w ≠ .vector → s.results = fun i => (m.child i).outcome (m.seenBy w i)) ∧
      ∀ i, s.seen i = some (m.seenBy w i) := by
    have hk (i) : s.Known w i (m.seenBy w i) .destroyed := hd i ▸ h.known i
    exact ⟨fun hw => funext fun i => (hk i).right hw, fun i => (hk i).left⟩
  simp only [Setup.output] at ho
  split at ho
  case isTrue hn =>
    subst hn
    cases ho
    exact ⟨rfl, fun i => i.elim0⟩
  case isFalse hn =>
    cases w <;> dsimp only at ho <;> split at ho <;> cases ho
    case oneByOne.isTrue.refl hnext =>
      obtain ⟨hr, hs⟩ := of_destroyed fun i => (h.completed i).mp (by simp [Config.Completed, hnext])
      exact ⟨by rw [hr (by simp)], hs⟩
    case variadic.isFalse.refl hres =>
      obtain ⟨_, _, hc⟩ := (CollectAllAwaiter.Inv.reachable h.awaiter).resumed hres
      obtain ⟨hr, hs⟩ := of_destroyed fun i => (h.completed i).mp (hc i).left
      exact ⟨by rw [hr (by simp)], hs⟩
    case vector.isFalse.refl hres =>
      obtain ⟨_, hlen, hc⟩ := (CollectAllAwaiter.Inv.reachable h.awaiter).resumed hres
      obtain ⟨_, hs⟩ := of_destroyed fun i => (h.completed i).mp (hc i).left
      refine ⟨List.ext_getElem? fun k => ?_, hs⟩
      by_cases hk : k < n
      case pos =>
        obtain ⟨t, hp, ho⟩ := (hc ⟨k, hk⟩).right
        rw [ho, List.getElem?_ofFn, dif_pos hk, h.produced rfl _ t hp]
      case neg => rw [List.getElem?_eq_none (by omega), List.getElem?_eq_none (by simp; omega)]

-- A child that is awaited can go on.
theorem not_quiescent (h : Inv w s) (hd : s.phase i ≠ .destroyed)
    (hr : match w with | .oneByOne => s.next = i | _ => s.awaiter.child i = .running) :
    ¬ (m.system w).Quiescent s := by
  intro hq
  have hk := h.known i
  cases hp : s.phase i <;> rw [hp] at hk
  case initial =>
    have := hq (.await i)
    cases w <;> simp [Setup.system, Setup.step, Setup.await, hp, hr] at this
  case running =>
    have := hq (.look i)
    simp [Setup.system, Setup.step, Setup.look, hp] at this
  case looked =>
    have := hq (.finish i)
    simp [Setup.system, Setup.step, Setup.finish, hp] at this
  case final =>
    have ha : ((m.child i).outcome (m.seenBy w i)).available := Try.available_makeTryCall _
    have := hq (.resume i)
    simp only [Setup.system, Setup.step, Setup.resume, hp, hk.2.2, Option.bind_some] at this
    cases w <;> dsimp only at hr
    case oneByOne => contradiction
    case vector =>
      simp [Setup.stepAwaiter, CollectAllAwaiter.Setup.system, CollectAllAwaiter.Setup.complete, Config.setPhase, hr, ha] at this
    case variadic =>
      simp [Setup.stepAwaiter, CollectAllAwaiter.Setup.system, CollectAllAwaiter.Setup.complete, Config.setPhase, hr,
        Try.available] at this
  case destroyed => exact hd hp

theorem isSome_of_quiescent (h : Inv w s) (hq : (m.system w).Quiescent s) : (m.output w s).isSome := by
  have resumed (hw : w ≠ .oneByOne) : s.awaiter.resumed ≠ [] := by
    have hi := CollectAllAwaiter.Inv.reachable h.awaiter
    have of_none {a : CollectAllAwaiter.Action n ε (Option α)} (e : m.stepAwaiter w s a = none) :
        (m.awaiter w).system.step s.awaiter a = none := by
      cases w
      case oneByOne => contradiction
      all_goals exact Option.map_eq_none_iff.mp e
    have hqa : (m.awaiter w).system.Quiescent s.awaiter := by
      intro a
      cases a
      case starter    => exact of_none (hq .starter)
      case runTask i  => exact of_none (hq (.runTask i))
      case child i    => exact of_none (hq (.callback i))
      case complete i t =>
        by_contra hc
        obtain ⟨_, hc⟩ := Option.ne_none_iff_exists'.mp hc
        have hrun := (CollectAllAwaiter.Inv.complete_eq hc).left
        refine not_quiescent (i := i) h ?_ ?_ hq
        · rw [ne_eq, ← h.completed i]
          cases w <;> simp_all [Config.Completed, CollectAllAwaiter.ChildPc.completed]
        · cases w <;> first | exact hrun | contradiction
    have : s.awaiter.resumed = [()] := hi.countdown.resumed_of_done (CollectAllAwaiter.done_of_quiescent hi hqa)
    simp [this]
  simp only [Setup.output]
  split
  case isTrue => rfl
  case isFalse =>
    cases w
    case oneByOne =>
      dsimp only
      split
      case isTrue => rfl
      case isFalse hn =>
        have hlt : s.next < n := by have := h.next; omega
        have hd : s.phase ⟨s.next, hlt⟩ ≠ .destroyed := by
          rw [ne_eq, ← h.completed]
          simp [Config.Completed]
        exact absurd hq (not_quiescent h hd rfl)
    all_goals simp [resumed]

theorem yields (m : Setup n ε α ξ) (w : Way) :
    m.Yields w (List.ofFn fun i => (m.child i).outcome (m.seenBy w i)) (m.seenBy w) where
  bounded := ⟨(m.init w).rank, fun j s hs => by
    have := hs.length_le (μ := Config.rank) fun hr e => rank_step (.reachable hr) e
    exact (Nat.le_add_right _ _).trans this⟩
  returns s hr hq       := isSome_of_quiescent (.reachable hr) hq
  output s ts' hr ho    := output_eq (.reachable hr) ho

theorem Setup.Yields.seen_eq {ts : List (Try ε (Option α))} {seen : Fin n → Option ξ} (h : m.Yields w ts seen) :
    seen = m.seenBy w := by
  obtain ⟨s, hr, hq⟩ := System.Reachable.exists_quiescent (S := m.system w) (μ := Config.rank)
    (fun hr e => rank_step (.reachable hr) e) .init
  obtain ⟨ts', ho⟩ := Option.isSome_iff_exists.mp (h.returns s hr hq)
  have h₁ := (h.output s ts' hr ho).right
  have h₂ := ((yields m w).output s ts' hr ho).right
  exact funext fun i => Option.some.inj ((h₁ i).symm.trans (h₂ i))

theorem Setup.Agree.executor (h : m.Agree) (i : Fin n) :
    (m.child i).executor_ = none ∨ (m.child i).executor_ = m.executor := by
  obtain ⟨ts, seen, h⟩ := h
  have hs : (m.child i).executor_.or m.executor = m.executor :=
    congrFun ((h .vector).seen_eq.symm.trans (h .oneByOne).seen_eq) i
  cases he : (m.child i).executor_
  case none => exact .inl rfl
  case some => exact .inr (by simpa [he] using hs)

theorem agree_iff (m : Setup n ε α ξ) :
    m.Agree ↔ ∀ i, (m.child i).executor_ = none ∨ (m.child i).executor_ = m.executor := by
  constructor
  case mp  => exact fun h => h.executor
  case mpr =>
    intro h
    have hs (w : Way) : m.seenBy w = fun _ => m.executor := by
      funext i
      cases w
      case vector => obtain he | he := h i <;> simp [Setup.seenBy, he]
      all_goals rfl
    refine ⟨List.ofFn fun i => (m.child i).outcome m.executor, fun _ => m.executor, fun w => ?_⟩
    simpa only [hs w] using yields m w

-- A child that is bound to executor 1 returns the executor that it sees, where the coroutine is bound to
-- executor 0.
def boundSetup : Setup 1 Unit (Option Nat) Nat where
  executor := some 0
  para     := false
  child _  := ⟨.value, some 1, fun executor => .ok executor⟩

def awaitRun (zero : Fin 1) : List (Action 1) :=
  [.await zero, .look zero, .finish zero, .resume zero]

def collectRun (zero : Fin 1) : List (Action 1) :=
  List.replicate 3 .starter ++ awaitRun zero ++ List.replicate 2 (.callback zero) ++ List.replicate 5 .starter

-- It sees its own executor if `CollectAll` over a vector awaits it, and that of the coroutine otherwise.
theorem executor_overwritten :
    (∃ s, (boundSetup.system .vector).Reachable s ∧ boundSetup.output .vector s = some [.value (some (some 1))]) ∧
    (∃ s, (boundSetup.system .variadic).Reachable s ∧ boundSetup.output .variadic s = some [.value (some (some 0))]) ∧
    (∃ s, (boundSetup.system .oneByOne).Reachable s ∧ boundSetup.output .oneByOne s = some [.value (some (some 0))]) ∧
    ¬ boundSetup.Agree := by
  have reach (w : Way) (as : List (Action 1)) (ts : List (Try Unit (Option (Option Nat))))
      (h : ((boundSetup.system w).run (boundSetup.system w).init as).any fun s => boundSetup.output w s = some ts) :
      ∃ s, (boundSetup.system w).Reachable s ∧ boundSetup.output w s = some ts := by
    obtain ⟨s, hr, hs⟩ := (boundSetup.system w).exists_reachable as h
    exact ⟨s, hr, of_decide_eq_true hs⟩
  refine ⟨reach _ (collectRun 0) _ (by decide), reach _ (collectRun 0) _ (by decide),
    reach _ (awaitRun 0) _ (by decide), fun h => ?_⟩
  obtain h | h := h.executor 0 <;> simp [boundSetup] at h

end Awaiting
end AsyncSimple
