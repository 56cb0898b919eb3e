import AsyncSimple.Lib.Count
import AsyncSimple.Sync.CollectAll
import AsyncSimple.Sync.Theorems.Lifetime

open Transition

namespace AsyncSimple
namespace CollectAll

variable {n : Nat} {ε α ξ γ : Type}

namespace Input

-- The continuations that keep the context.
def weight : Input ε α ξ γ → Nat
  | localState _ => 0
  | shared c     => c.constructed - c.destroyed

def call (act : Lifetime.Action ε α Unit) :
    Input ε α ξ γ → Option (Lifetime.Config ε α Unit ξ γ × Lifetime.Action ε α Unit)
  | localState _ => none
  | shared c     => some (c, act)

end Input

namespace Config

def weight (s : Config n ε α ξ γ) : Nat :=
  ∑ i, (s.inputs i).weight

-- The step of a shared state that an action takes.
def call (s : Config n ε α ξ γ) :
    Action n ε α → Option (Lifetime.Config ε α Unit ξ γ × Lifetime.Action ε α Unit)
  | .collectAll =>
    match s.pc with
    | .setContinuation i => (s.inputs i).call (.setContinuation ())
    | _                  => none
  | .input i act => (s.inputs i).call act

end Config

-- The shared states of the range have few attachments, and none of their promises is overwritten
-- while there is no result.
def Bounded (s : Config n ε α ξ γ) (a : Action n ε α) : Prop :=
  (s.call a).all fun x => decide (Lifetime.Bounded x.1 x.2)

instance (s : Config n ε α ξ γ) (a : Action n ε α) : Decidable (Bounded s a) :=
  inferInstanceAs (Decidable (_ = true))

namespace Pc

-- The futures below this number have been dealt with.
def next : Pc n ε α → Nat
  | .loop i                                   => min i n
  | .setResult i | .setContinuation i         => i
  | .release | .returned                      => n
  | .notStarted | .allOf _ | .collect _ _ | .makeContext => 0

-- Whether the local variable `ctx` exists.
def holds : Pc n ε α → Bool
  | .loop _ | .setResult _ | .setContinuation _ | .release => true
  | _                                                      => false

end Pc

-- The place of a future in the results is filled, unless its continuation is still to be executed.
def Stored (results : List (Try ε α)) (i : Fin n) : Input ε α ξ γ → Prop
  | .localState t => results[i.val]? = some t
  | .shared c     =>
    (c.constructed = 1 ∧ c.executed = 0) ∨
    (c.fs.hasResult ∧ results[i.val]? = some c.fs.try_value_)

-- Whether `CollectAll` uses the futures.
def Pc.running : Pc n ε α → Bool
  | .notStarted | .returned => false
  | _                       => true

-- Before the loop has dealt with a future, there is no continuation.
def InputInv (pc : Pc n ε α) (i : Fin n) : Input ε α ξ γ → Prop
  | .localState t => t.available
  | .shared c     =>
    Lifetime.Inv c ∧ (pc.next ≤ i → c.constructed = 0) ∧ (pc.running → 0 < c.holders .future)

-- The first futures have results, which have been collected.
structure Collected (s : Config n ε α ξ γ) (results : List (Try ε α)) (k : Nat) : Prop where
  length    : results.length = k
  hasResult : ∀ i : Fin n, i.val < k → (s.inputs i).hasResult
  result    : ∀ i : Fin n, i.val < k → results[i.val]? = some (s.inputs i).result

-- The context with its references, where `k` counts the local variable `ctx`.
structure Context (s : Config n ε α ξ γ) (k : Nat) : Prop where
  use_count : s.use_count = s.weight + k
  published : s.published = if s.use_count = 0 then [s.results] else []
  length    : s.results.length = n
  stored    : ∀ i : Fin n, i.val < s.pc.next → Stored s.results i (s.inputs i)

inductive Phase (s : Config n ε α ξ γ) : Prop
  | before :
    (s.pc = .notStarted ∨ s.pc = .makeContext) → (s.published = []) → Phase s
  | allOf :
    (s.pc = .allOf k) → (∀ i : Fin n, i.val < k → (s.inputs i).hasResult) → (s.published = []) → Phase s
  | collect :
    (s.pc = .collect k results) → (∀ i, (s.inputs i).hasResult) → (k ≤ n) → (Collected s results k) →
    (s.published = []) → Phase s
  | collected :
    (s.pc = .returned) → (∀ i c, s.inputs i = .shared c → c.constructed = 0) →
    (s.published = [results]) → (Collected s results n) → Phase s
  | loop :
    (s.pc.holds) → (∀ i, s.pc = .setResult i → (s.inputs i).hasResult) → (Context s 1) → Phase s
  | returned :
    (s.pc = .returned) → (Context s 0) → Phase s

structure Inv (s : Config n ε α ξ γ) : Prop where
  inputs : ∀ i, InputInv s.pc i (s.inputs i)
  phase  : Phase s

variable {m : Setup n ε α} {s s₁ s₂ : Config n ε α ξ γ} {i : Fin n}

theorem Phase.of_goto {pc : Pc n ε α} (hh : pc.holds) (hr : ∀ i, pc ≠ .setResult i)
    (h : Context (s.goto pc) 1) : Phase (s.goto pc) :=
  .loop hh (fun i hp => absurd hp (hr i)) h

-- Storing another result does not matter.
theorem Stored.set {j : Fin n} {x : Input ε α ξ γ} (h : Stored results j x) (hne : j ≠ i) :
    Stored (results.set i t) j x := by
  have hne : i.val ≠ j := fun h => hne (Fin.ext h.symm)
  cases x
  case localState => exact (List.getElem?_set_ne hne).trans h
  case shared     => exact h.imp_right fun h => ⟨h.left, (List.getElem?_set_ne hne).trans h.right⟩

-- What the shared state of an input does, while `CollectAll` does nothing.
section StepInput

variable {c c' : Lifetime.Config ε α Unit ξ γ} {act : Lifetime.Action ε α Unit}

@[simp]
theorem setInput_self {x : Input ε α ξ γ} : (s.setInput i x).inputs i = x :=
  Function.update_self ..

theorem setInput_of_ne {x : Input ε α ξ γ} {j : Fin n} (h : j ≠ i) :
    (s.setInput i x).inputs j = s.inputs j :=
  Function.update_of_ne h ..

theorem weight_le (s : Config n ε α ξ γ) (i : Fin n) : (s.inputs i).weight ≤ s.weight :=
  Finset.single_le_sum (f := fun i => (s.inputs i).weight) (fun _ _ => Nat.zero_le _) (Finset.mem_univ i)

theorem weight_setInput (s : Config n ε α ξ γ) (i : Fin n) (x : Input ε α ξ γ) :
    (s.setInput i x).weight + (s.inputs i).weight = s.weight + x.weight :=
  Count.sum_update Input.weight s.inputs i x

-- A step of a shared state, seen from `CollectAll`.
structure Observed (c c' : Lifetime.Config ε α Unit ξ γ) : Prop where
  inv         : Lifetime.Inv c
  inv'        : Lifetime.Inv c'
  mono        : Lifetime.Mono c c'
  constructed : c'.constructed = c.constructed

namespace Observed

theorem of_step (i : Lifetime.Inv c) (hb : Lifetime.Bounded c act)
    (h : Lifetime.system.step c act = some c') (hne : ∀ func, act ≠ .setContinuation func) :
    Observed c c' :=
  ⟨i, i.step hb h, .step h, Lifetime.step_constructed h hne⟩

-- An execution is the first one, and it happens before the destruction.
theorem executed (o : Observed c c') (h : c.executed < c'.executed) :
    c.constructed = 1 ∧ c.destroyed = 0 ∧ c'.fs.hasResult := by
  have h₁ := o.inv'.executed_le
  obtain ⟨hc, hr⟩ := o.inv'.of_executed (by omega)
  refine ⟨o.constructed ▸ hc, ?_, hr⟩
  by_contra hd
  have := o.inv.kept_of.executed (Nat.pos_of_ne_zero hd)
  omega

theorem destroyed (o : Observed c c') (h : c.destroyed < c'.destroyed) :
    c.constructed = 1 ∧ c.destroyed = 0 ∧ c'.destroyed = 1 := by
  have h₁ := o.inv'.kept_of.destroyed
  have h₂ := o.inv'.kept_of.constructed
  have h₃ := o.constructed
  omega

-- Without a continuation, there is nothing to observe.
theorem none (o : Observed c c') (h : c.constructed = 0) (s : Config n ε α ξ γ) :
    s.observe i c c' = s := by
  have he : ¬ c.executed < c'.executed := fun he => by
    have := (o.executed he).left
    omega
  have hd : ¬ c.destroyed < c'.destroyed := fun hd => by
    have := (o.destroyed hd).left
    omega
  simp only [Config.observe, he, hd, if_false]

theorem stored (o : Observed c c') (h : Stored results i (.shared c)) (he : ¬ c.executed < c'.executed) :
    Stored results i (.shared c') := by
  obtain ⟨hc, hx⟩ | ⟨hr, hv⟩ := h
  · exact .inl ⟨o.constructed.trans hc, by omega⟩
  · obtain ⟨hr', hv'⟩ := o.mono.result hr
    exact .inr ⟨hr', hv' ▸ hv⟩

end Observed

-- What the execution of the continuation stores.
def Config.stored (s : Config n ε α ξ γ) (i : Fin n) (c c' : Lifetime.Config ε α Unit ξ γ) :
    List (Try ε α) :=
  if c.executed < c'.executed then s.results.set i c'.fs.try_value_ else s.results

theorem observe_eq : s.observe i c c' =
    if c.destroyed < c'.destroyed then
      { s with results := s.stored i c c' }.unref
    else
      { s with results := s.stored i c c' } := by
  by_cases he : c.executed < c'.executed <;>
    simp only [Config.observe, Config.stored, Config.store, he, if_true, if_false]

theorem unref_pc : s.unref.pc = s.pc := by
  simp only [Config.unref]
  split <;> rfl

theorem unref_inputs : s.unref.inputs = s.inputs := by
  simp only [Config.unref]
  split <;> rfl

theorem observe_pc : (s.observe i c c').pc = s.pc := by
  rw [observe_eq]
  split
  case isTrue  => rw [unref_pc]
  case isFalse => rfl

theorem observe_inputs : (s.observe i c c').inputs = s.inputs := by
  rw [observe_eq]
  split
  case isTrue  => rw [unref_inputs]
  case isFalse => rfl

namespace Context

theorem unref (x : Context s (k + 1)) : Context s.unref k := by
  have hu := x.use_count
  have hp := x.published
  rw [if_neg (by omega)] at hp
  simp only [Config.unref]
  split
  case isTrue h =>
    refine ⟨?_, ?_, x.length, x.stored⟩
    · change 0 = s.weight + k
      omega
    · simp [hp]
  case isFalse h =>
    refine ⟨?_, ?_, x.length, x.stored⟩
    · change s.use_count - 1 = s.weight + k
      omega
    · simp only [hp]
      rw [if_neg (by omega)]

theorem setInput (x : Context s k) (hi : s.inputs i = .shared c) (o : Observed c c') :
    Context { s.setInput i (.shared c') with results := s.stored i c c' }
      (if c.destroyed < c'.destroyed then k + 1 else k) := by
  have hw := weight_setInput s i (.shared c')
  have hle := weight_le s i
  have hc := o.constructed
  have hu := x.use_count
  have hw' : ({ s.setInput i (.shared c') with results := s.stored i c c' } : Config ..).weight =
    (s.setInput i (.shared c')).weight := rfl
  simp only [hi, Input.weight] at hw hle
  refine ⟨?_, ?_, ?_, fun j hj => ?_⟩
  · change s.use_count = _
    rw [hw']
    split
    case isTrue hd =>
      have := o.destroyed hd
      omega
    case isFalse hd =>
      have := o.mono.destroyed
      omega
  · -- The results are complete when the context is destroyed.
    change s.published = if s.use_count = 0 then [s.stored i c c'] else []
    rw [x.published]
    split
    case isFalse => rfl
    case isTrue h =>
      have he : ¬ c.executed < c'.executed := fun he => by
        have := o.executed he
        omega
      simp only [Config.stored, he, if_false]
  · simp only [Config.stored]
    split <;> simp [x.length]
  · have hs := x.stored j hj
    simp only [Config.stored, Config.setInput]
    by_cases hji : j = i
    · subst hji
      rw [hi] at hs
      rw [Function.update_self]
      split
      case isTrue he  => exact .inr ⟨(o.executed he).right.right, by simp [x.length]⟩
      case isFalse he => exact o.stored hs he
    · rw [Function.update_of_ne hji]
      split
      case isFalse => exact hs
      case isTrue  => exact hs.set hji

theorem observe (x : Context s k) (hi : s.inputs i = .shared c) (o : Observed c c') :
    Context ((s.setInput i (.shared c')).observe i c c') k := by
  have := x.setInput hi o
  rw [observe_eq]
  split
  case isTrue hd =>
    rw [if_pos hd] at this
    exact this.unref
  case isFalse hd =>
    rw [if_neg hd] at this
    exact this

end Context

-- A result stays as it is.
theorem result_mono (hi : s.inputs i = .shared c) (o : Observed c c') (j : Fin n)
    (hr : (s.inputs j).hasResult) :
    ((s.setInput i (.shared c')).inputs j).hasResult ∧
    ((s.setInput i (.shared c')).inputs j).result = (s.inputs j).result := by
  by_cases hj : j = i
  · subst hj
    rw [hi] at hr
    rw [setInput_self, hi]
    exact o.mono.result hr
  · rw [setInput_of_ne hj]
    exact ⟨hr, rfl⟩

theorem Collected.setInput (x : Collected s results k) (hi : s.inputs i = .shared c)
    (o : Observed c c') : Collected (s.setInput i (.shared c')) results k where
  length         := x.length
  hasResult j hj := (result_mono hi o j (x.hasResult j hj)).left
  result j hj    := by
    rw [(result_mono hi o j (x.hasResult j hj)).right]
    exact x.result j hj

theorem stepInput_some (h : s₁.stepInput i act = some s₂) :
    ∃ c c', s₁.inputs i = .shared c ∧ s₁.allows c act ∧ Lifetime.system.step c act = some c' ∧
      s₂ = (s₁.setInput i (.shared c')).observe i c c' := by
  simp only [Config.stepInput] at h
  split at h
  case h_1 => contradiction
  case h_2 c hi =>
    split at h
    case isFalse => contradiction
    case isTrue ha =>
      obtain ⟨c', hs, rfl⟩ := Option.map_eq_some_iff.mp h
      exact ⟨c, c', hi, ha, hs, rfl⟩

theorem not_setContinuation (ha : s.allows c act) (func : Unit) : act ≠ .setContinuation func := by
  rintro rfl
  simp [Config.allows] at ha

-- As long as `CollectAll` is running, there is a future of the range.
theorem future_pos (ha : s.allows c act) (hr : s.pc.running) (hp : 0 < c.holders .future)
    (h : Lifetime.system.step c act = some c') : 0 < c'.holders .future := by
  by_cases hn : c.holders .future = 1
  case neg => exact Lifetime.step_future_of_ne_one h hn hp
  case pos =>
    have hne (hd : act = .destroyFuture ∨ act = .overwriteFuture) : False := by
      cases hpc : s.pc <;> obtain rfl | rfl := hd <;> simp_all [Config.allows, Pc.running]
    refine hp.trans_le (Lifetime.step_future h ?_ ?_)
    · rintro rfl
      exact hne (.inl rfl)
    · rintro rfl
      exact hne (.inr rfl)

theorem Inv.stepInput (x : Inv s₁) (hb : Bounded s₁ (.input i act)) (h : s₁.stepInput i act = some s₂) :
    Inv s₂ := by
  obtain ⟨c, c', hi, ha, hs, rfl⟩ := stepInput_some h
  have hin := x.inputs i
  rw [hi] at hin
  obtain ⟨ic, hc, hf⟩ := hin
  have hb : Lifetime.Bounded c act := by simpa [Bounded, Config.call, hi, Input.call] using hb
  have o := Observed.of_step ic hb hs (not_setContinuation ha)
  constructor
  · intro j
    rw [observe_pc, observe_inputs]
    by_cases hj : j = i
    · subst hj
      rw [setInput_self]
      exact ⟨o.inv', fun h => o.constructed.trans (hc h), fun h => future_pos ha h (hf h) hs⟩
    · rw [setInput_of_ne hj]
      exact x.inputs j
  · -- Before the loop, there are no continuations.
    have hnone (h : s₁.pc.next = 0) :
        (s₁.setInput i (.shared c')).observe i c c' = s₁.setInput i (.shared c') :=
      o.none (hc (h ▸ Nat.zero_le _)) _
    cases x.phase
    case before hpc hp =>
      rw [hnone (by obtain h | h := hpc <;> simp [h, Pc.next])]
      exact .before hpc hp
    case allOf hpc hr hp =>
      rw [hnone (by simp [hpc, Pc.next])]
      exact .allOf hpc (fun j hj => (result_mono hi o j (hr j hj)).left) hp
    case collect hpc hr hk hx hp =>
      rw [hnone (by simp [hpc, Pc.next])]
      exact .collect hpc (fun j => (result_mono hi o j (hr j)).left) hk (hx.setInput hi o) hp
    case collected hpc h₀ hp hx =>
      rw [o.none (h₀ i c hi)]
      refine .collected hpc (fun j d hd => ?_) hp (hx.setInput hi o)
      by_cases hj : j = i
      · subst hj
        rw [setInput_self] at hd
        exact Input.shared.inj hd ▸ o.constructed.trans (h₀ _ c hi)
      · rw [setInput_of_ne hj] at hd
        exact h₀ j d hd
    case loop hpc hr hx =>
      refine .loop (by rwa [observe_pc]) (fun j hj => ?_) (hx.observe hi o)
      rw [observe_pc] at hj
      rw [observe_inputs]
      exact (result_mono hi o j (hr j hj)).left
    case returned hpc hx => exact .returned (by rwa [observe_pc]) (hx.observe hi o)

end StepInput

-- The steps of `CollectAll`.

theorem InputInv.mono {pc pc' : Pc n ε α} {x : Input ε α ξ γ} (h : InputInv pc i x)
    (hn : pc.next ≤ pc'.next) (hr : pc'.running → pc.running) : InputInv pc' i x := by
  cases x
  case localState => exact h
  case shared     => exact ⟨h.left, fun hi => h.right.left (hn.trans hi), fun h' => h.right.right (hr h')⟩

theorem Context.goto (x : Context s k) (hn : pc.next ≤ s.pc.next) : Context (s.goto pc) k :=
  ⟨x.use_count, x.published, x.length, fun j hj => x.stored j (hj.trans_le hn)⟩

-- The next place of the results has been dealt with.
theorem Context.next (x : Context s k) (hp : s.pc.next = i) (hs : Stored s.results i (s.inputs i)) :
    Context (s.goto (.loop (i + 1))) k := by
  refine ⟨x.use_count, x.published, x.length, fun j hj => ?_⟩
  have hj : j.val < min (i.val + 1) n := hj
  by_cases hji : j = i
  · exact hji ▸ hs
  · exact x.stored j (by
      have : j.val ≠ i := fun h => hji (Fin.ext h)
      omega)

theorem Context.store (x : Context s (k + 1)) (hp : s.pc.next = i) (t : Try ε α) :
    Context (s.store i t) (k + 1) := by
  have hu := x.use_count
  have hp' := x.published
  refine ⟨hu, ?_, ?_, fun j hj => ?_⟩
  · change s.published = if s.use_count = 0 then _ else _
    rw [hp', if_neg (by omega), if_neg (by omega)]
  · simp [Config.store, x.length]
  · have hj : j.val < s.pc.next := hj
    refine (x.stored j hj).set fun h => ?_
    subst h
    omega

theorem Inv.inputs_goto (x : Inv s) {pc : Pc n ε α} (hn : s.pc.next ≤ pc.next)
    (hr : pc.running → s.pc.running) (j : Fin n) : InputInv pc j (s.inputs j) :=
  (x.inputs j).mono hn hr

theorem next_le (i : Fin n) : i.val ≤ (Pc.loop (i + 1) : Pc n ε α).next := by
  simp only [Pc.next]
  omega

-- The loop sets a continuation, although there may be a result by now.
theorem Inv.setContinuation {i : Fin n} (x : Inv s₁) (hc : Context s₁ 1)
    (hp : s₁.pc = .setContinuation i) (hb : Bounded s₁ .collectAll)
    (h : s₁.setContinuation i = some s₂) : Inv (s₂.goto (.loop (i + 1))) := by
  have hin := x.inputs i
  have hnext : s₁.pc.next = i := by simp [hp, Pc.next]
  have hmono : s₁.pc.next ≤ (Pc.loop (i + 1) : Pc n ε α).next := hnext ▸ next_le i
  have hrun : s₁.pc.running := by simp [hp, Pc.running]
  simp only [Config.setContinuation] at h
  cases hi : s₁.inputs i <;> rw [hi] at hin <;> simp only [hi] at h
  case localState t =>
    split at h <;> cases h
    refine ⟨fun j => (x.inputs j).mono hmono fun _ => hrun, .of_goto rfl (by simp) ?_⟩
    refine (hc.store hnext t).next hnext ?_
    simp [Stored, Config.store, hi, hc.length]
  case shared c =>
    obtain ⟨c', hs, rfl⟩ := Option.map_eq_some_iff.mp h
    obtain ⟨ic, hc₀, hf⟩ := hin
    have hb : Lifetime.Bounded c (.setContinuation ()) := by
      simpa [Bounded, Config.call, hp, hi, Input.call] using hb
    have ic' := ic.step hb hs
    obtain ⟨hcon, hexe, hdes⟩ := ic.setContinuation_some (hc₀ (Nat.le_of_eq hnext)) hs
    have he : c.executed = 0 := by
      by_contra he
      have := (ic.of_executed (Nat.pos_of_ne_zero he)).left
      have := hc₀ (Nat.le_of_eq hnext)
      omega
    have hd := ic.kept_of.destroyed
    refine ⟨fun j => ?_, .of_goto rfl (by simp) ?_⟩
    · simp only [Config.goto]
      by_cases hj : j = i
      · subst hj
        rw [setInput_self]
        refine ⟨ic', fun h => ?_, fun _ => (hf hrun).trans_le (Lifetime.step_future hs (by simp) (by simp))⟩
        simp only [Pc.next] at h
        omega
      · rw [setInput_of_ne hj]
        exact (x.inputs j).mono hmono fun _ => hrun
    · have hw := weight_setInput s₁ i (.shared c')
      have hu := hc.use_count
      have hp := hc.published
      simp only [hi, Input.weight, hcon, hc₀ (Nat.le_of_eq hnext)] at hw
      rw [if_neg (by omega)] at hp
      have hx : Context { s₁.setInput i (.shared c') with use_count := s₁.use_count + 1 } 1 := by
        refine ⟨?_, hp, hc.length, fun j hj => ?_⟩
        · change s₁.use_count + 1 = (s₁.setInput i (.shared c')).weight + 1
          have := hc₀ (Nat.le_of_eq hnext)
          omega
        · have hj : j.val < s₁.pc.next := hj
          have hji : j ≠ i := fun h => by
            subst h
            omega
          simp only [setInput_of_ne hji]
          exact hc.stored j hj
      refine hx.next hnext ?_
      simp only [setInput_self]
      exact Or.inl ⟨hcon, by omega⟩

theorem Inv.stepCollectAll (x : Inv s₁) (hb : Bounded s₁ .collectAll)
    (h : s₁.stepCollectAll = some s₂) : Inv s₂ := by
  have hin := x.inputs
  have hgoto {pc : Pc n ε α} (hn : s₁.pc.next ≤ pc.next) (hr : s₁.pc.running) (j : Fin n) :
      InputInv pc j (s₁.inputs j) := x.inputs_goto hn (fun _ => hr) j
  cases x.phase
  case before hpc hp =>
    obtain hpc | hpc := hpc <;> simp only [Config.stepCollectAll, hpc] at h
    case inl =>
      split at h <;> cases h
      case isTrue hv =>
        refine ⟨fun j => ?_, .allOf rfl (by simp) hp⟩
        have hj := hin j
        have hvj := hv j
        simp only [Config.goto]
        cases hi : s₁.inputs j <;> rw [hi] at hj hvj
        case localState => exact hj
        case shared =>
          simp only [Input.valid, Bool.and_eq_true, decide_eq_true_eq] at hvj
          exact ⟨hj.left, fun _ => hj.right.left (by simp [hpc, Pc.next]), fun _ => hvj.left⟩
    case inr =>
      cases h
      have hw : s₁.weight = 0 := by
        refine Finset.sum_eq_zero fun j _ => ?_
        have hj := hin j
        cases hi : s₁.inputs j <;> rw [hi] at hj
        case localState => rfl
        case shared     => simp [Input.weight, hj.right.left (by simp [hpc, Pc.next])]
      refine ⟨hgoto (by simp [hpc, Pc.next]) (by simp [hpc, Pc.running]),
        .of_goto rfl (by simp) ⟨?_, hp, ?_, fun _ h => absurd h (Nat.not_lt_zero _)⟩⟩
      · change 1 = s₁.weight + 1
        rw [hw]
      · simp [Config.goto]
  case allOf k hpc hr hp =>
    simp only [Config.stepCollectAll, hpc] at h
    have hg {pc : Pc n ε α} : ∀ j, InputInv pc j (s₁.inputs j) :=
      hgoto (by simp [hpc, Pc.next]) (by simp [hpc, Pc.running])
    split at h
    case isTrue hk =>
      split at h <;> cases h
      case isTrue hk' =>
        refine ⟨hg, .allOf rfl (fun j hj => ?_) hp⟩
        by_cases hjk : j.val = k
        · have : j = ⟨k, hk⟩ := Fin.ext hjk
          exact this ▸ hk'
        · exact hr j (by omega)
      case isFalse => exact ⟨hg, .before (.inr rfl) hp⟩
    case isFalse hk =>
      cases h
      exact ⟨hg, .collect rfl (fun j => hr j (by omega)) (Nat.zero_le _) ⟨rfl, (by simp), (by simp)⟩ hp⟩
  case collect k results hpc hr hk hx hp =>
    simp only [Config.stepCollectAll, hpc] at h
    have hg {pc : Pc n ε α} : ∀ j, InputInv pc j (s₁.inputs j) :=
      hgoto (by simp [hpc, Pc.next]) (by simp [hpc, Pc.running])
    split at h <;> cases h
    case isTrue hk' =>
      refine ⟨hg, .collect rfl hr hk' ⟨by simp [hx.length], fun j _ => hr j, fun j hj => ?_⟩ hp⟩
      by_cases hjk : j.val = k
      · have : j = ⟨k, hk'⟩ := Fin.ext hjk
        subst this
        simp [Config.goto, hx.length]
      · rw [List.getElem?_append_left (by rw [hx.length]; omega)]
        exact hx.result j (by omega)
    case isFalse hk' =>
      have hk : k = n := by omega
      subst hk
      refine ⟨hg, .collected rfl (fun j c hj => ?_) ?_ ⟨hx.length, hx.hasResult, hx.result⟩⟩
      · have hj' := hin j
        have hj : s₁.inputs j = .shared c := hj
        rw [hj] at hj'
        exact hj'.right.left (by simp [hpc, Pc.next])
      · simp [Config.goto, hp]
  case collected hpc _ _ _ => simp [Config.stepCollectAll, hpc] at h
  case returned hpc _      => simp [Config.stepCollectAll, hpc] at h
  case loop hpc hr hx =>
    cases hpc' : s₁.pc <;> simp only [Config.stepCollectAll, hpc'] at h <;>
      simp only [hpc', Pc.holds, Bool.false_eq_true] at hpc
    case loop k =>
      have hn : s₁.pc.next = min k n := by rw [hpc']; rfl
      have hrun : s₁.pc.running := by rw [hpc']; rfl
      split at h <;> cases h
      case isTrue hk =>
        have hk' : s₁.pc.next = k := hn.trans (Nat.min_eq_left (Nat.le_of_lt hk))
        split
        case isTrue hr =>
          refine ⟨hgoto (Nat.le_of_eq hk') hrun, .loop rfl ?_ (hx.goto (Nat.le_of_eq hk'.symm))⟩
          rintro j ⟨⟩
          exact hr
        case isFalse =>
          exact ⟨hgoto (Nat.le_of_eq hk') hrun, .of_goto rfl (by simp) (hx.goto (Nat.le_of_eq hk'.symm))⟩
      case isFalse hk =>
        have hk' : s₁.pc.next = n := hn.trans (by omega)
        exact ⟨hgoto (Nat.le_of_eq hk') hrun, .of_goto rfl (by simp) (hx.goto (Nat.le_of_eq hk'.symm))⟩
    case setResult j =>
      cases h
      have hn : s₁.pc.next = j := by rw [hpc']; rfl
      have hrun : s₁.pc.running := by rw [hpc']; rfl
      refine ⟨hgoto (hn ▸ next_le j) hrun,
        .of_goto rfl (by simp) ((hx.store hn _).next hn ?_)⟩
      have hj := hr j hpc'
      have hs : (s₁.results.set j (s₁.inputs j).result)[j.val]? = some (s₁.inputs j).result := by
        simp [hx.length]
      simp only [Config.store]
      cases hi : s₁.inputs j <;> rw [hi] at hj hs
      case localState => exact hs
      case shared     => exact .inr ⟨hj, hs⟩
    case setContinuation j =>
      obtain ⟨s, hs, rfl⟩ := Option.map_eq_some_iff.mp h
      exact x.setContinuation hx hpc' hb hs
    case release =>
      cases h
      have hn : s₁.pc.next = n := by rw [hpc']; rfl
      have hrun : s₁.pc.running := by rw [hpc']; rfl
      have hx' := hx.unref
      refine ⟨fun j => ?_, .returned rfl (hx'.goto (by rw [unref_pc, hn]; exact Nat.le_refl _))⟩
      simp only [Config.goto, unref_inputs]
      exact (hin j).mono (Nat.le_of_eq hn) fun h => absurd h Bool.false_ne_true

namespace Inv

theorem init : Inv (m.init : Config n ε α ξ γ) where
  inputs i := by
    simp only [Setup.init]
    split
    case h_1 h => exact m.available i _ h
    case h_2   => exact ⟨.init, fun _ => rfl, fun h => absurd h Bool.false_ne_true⟩
  phase    := .before (.inl rfl) rfl

theorem step (x : Inv s₁) (hb : Bounded s₁ a) (h : m.system.step s₁ a = some s₂) : Inv s₂ := by
  cases a
  case collectAll => exact x.stepCollectAll hb h
  case input      => exact x.stepInput hb h

theorem reachable (h : (m.system.restrict Bounded).Reachable s) : Inv s := by
  refine h.invariant (S := m.system.restrict Bounded) init fun x hs => ?_
  obtain ⟨hb, hs⟩ := System.restrict_step.mp hs
  exact x.step hb hs

end Inv

-- The steps that are left for `CollectAll`, for `ScheduleContinuation`, and for the executors, except
-- that an executor may always copy a task.
def Action.internal : Action n ε α → Bool
  | .collectAll               => true
  | .input _ (.schedule _ _)  => true
  | .input _ .runTask         => true
  | .input _ .finishTask      => true
  | .input _ .destroyTask     => true
  | _                         => false

-- The returned future gets a result at most once, and only when every future of the range has one:
-- the vector of these results. It has got it by the time nothing is left to do.
structure Collects (m : Setup n ε α) (s : Config n ε α ξ γ) : Prop where
  once      : s.published.length ≤ 1
  length    : ∀ results ∈ s.published, results.length = n
  hasResult : ∀ results ∈ s.published, ∀ i, (s.inputs i).hasResult
  result    : ∀ results ∈ s.published, ∀ i : Fin n, results[i.val]? = some (s.inputs i).result
  complete  : s.pc ≠ .notStarted → (∀ i, (s.inputs i).hasResult) →
    (∀ a : Action n ε α, a.internal → m.system.step s a = none) → s.published.length = 1

-- When no continuation keeps the context any more, all results are in their places.
theorem Context.collected (x : Context s 0) (hi : ∀ i, InputInv s.pc i (s.inputs i))
    (hp : s.pc = .returned) (hw : s.weight = 0) : Collected s s.results n := by
  have hs (i : Fin n) : (s.inputs i).hasResult ∧ s.results[i.val]? = some (s.inputs i).result := by
    have hs := x.stored i (by rw [hp]; exact i.isLt)
    have hi := hi i
    have hle := weight_le s i
    cases hx : s.inputs i <;> rw [hx] at hs hi hle
    case localState => exact ⟨hi, hs⟩
    case shared c =>
      refine hs.resolve_left fun ⟨hc, he⟩ => ?_
      -- The continuation has been destroyed, so that it has been executed.
      have hd := hi.left.kept_of.executed
      simp only [Input.weight] at hle
      omega
  exact ⟨x.length, fun i _ => (hs i).left, fun i _ => (hs i).right⟩

-- Nothing keeps the context, when there is a result for every future and nothing is left to do.
theorem Inv.weight_eq_zero (x : Inv s) (hr : ∀ i, (s.inputs i).hasResult)
    (hq : ∀ a : Action n ε α, a.internal → m.system.step s a = none) : s.weight = 0 := by
  refine Finset.sum_eq_zero fun i _ => ?_
  have hi := x.inputs i
  have hr := hr i
  cases hx : s.inputs i <;> rw [hx] at hi hr
  case localState => rfl
  case shared c =>
    have hstep {act} (ha : s.allows c act) (h : s.stepInput i act = none) :
        Lifetime.system.step c act = none := by
      simpa [Config.stepInput, hx, ha] using h
    have hsched (inline accept : Bool) : c.stepSchedule inline accept = none := by
      have := hstep rfl (hq (.input i (.schedule inline accept)) rfl)
      simpa [Lifetime.system, hi.left.fault, Lifetime.Config.step] using this
    obtain ⟨hpc, hrefs⟩ := hi.left.settled hsched (hstep rfl (hq (.input i .runTask) rfl))
      (hstep rfl (hq (.input i .finishTask) rfl)) (hstep rfl (hq (.input i .destroyTask) rfl))
    simp only [Input.weight]
    obtain hpc | hpc := hpc
    · have hr : c.fs.hasResult := hr
      have hc : c.fs.hasContinuation = false := by simpa [hr] using hi.left.idle.mp hpc
      rw [hi.left.constructed, hc, if_neg Bool.false_ne_true, Nat.zero_sub]
    · rw [hi.left.kept_of.released (.inl hpc) hrefs, Nat.sub_self]

-- `CollectAll` itself always has a next step, until it returns.
theorem Inv.returned (x : Inv s) (hs : s.pc ≠ .notStarted) (hq : s.stepCollectAll = none) :
    s.pc = .returned := by
  cases hp : s.pc <;> simp only [Config.stepCollectAll, hp] at hq
  case notStarted  => exact absurd hp hs
  case allOf       => split at hq <;> (try split at hq) <;> contradiction
  case collect     => split at hq <;> contradiction
  case loop        => split at hq <;> contradiction
  case setContinuation i =>
    have hi := x.inputs i
    simp only [Option.map_eq_none_iff, Config.setContinuation] at hq
    cases hx : s.inputs i <;> rw [hx] at hi <;> simp only [hx] at hq
    case localState =>
      have hi : Try.available _ := hi
      simp [hi] at hq
    case shared c =>
      have hf := hi.right.right (by rw [hp]; rfl)
      simp only [Option.map_eq_none_iff, Lifetime.system, hi.left.fault, if_true,
        Lifetime.Config.step] at hq
      split at hq
      case isTrue  => omega
      case isFalse => contradiction
  case returned => rfl
  all_goals contradiction

-- As long as the shared states have few attachments, `CollectAll` works.
theorem collectAll_futures (h : (m.system.restrict Bounded).Reachable s) : Collects m s := by
  have x := Inv.reachable h
  have hcontext (hp : s.pc = .returned) (c : Context s 0) :
      s.published.length ≤ 1 ∧ (∀ results ∈ s.published, Collected s results n) ∧
      (s.weight = 0 → s.published.length = 1) := by
    have hu := c.use_count
    rw [c.published]
    split
    case isTrue hw =>
      refine ⟨by simp, fun results hr => ?_, by simp⟩
      rw [List.mem_singleton.mp hr]
      exact c.collected x.inputs hp (by omega)
    case isFalse hw => exact ⟨by simp, (by simp), by omega⟩
  have hall : s.published.length ≤ 1 ∧ (∀ results ∈ s.published, Collected s results n) ∧
      (s.pc = .returned → s.weight = 0 → s.published.length = 1) := by
    cases x.phase
    case before hpc hp    => exact ⟨by simp [hp], by simp [hp], by rcases hpc with h | h <;> simp [h]⟩
    case allOf hpc _ hp   => exact ⟨by simp [hp], by simp [hp], by simp [hpc]⟩
    case collect hpc _ _ _ hp => exact ⟨by simp [hp], by simp [hp], by simp [hpc]⟩
    case collected hpc _ hp c =>
      refine ⟨by simp [hp], fun results hr => ?_, by simp [hp]⟩
      rw [hp] at hr
      exact List.mem_singleton.mp hr ▸ c
    case loop hpc _ c =>
      have hp := c.published
      have hu := c.use_count
      rw [if_neg (by omega)] at hp
      exact ⟨by simp [hp], by simp [hp], fun h => by simp [h, Pc.holds] at hpc⟩
    case returned hpc c =>
      obtain ⟨h₁, h₂, h₃⟩ := hcontext hpc c
      exact ⟨h₁, h₂, fun _ => h₃⟩
  obtain ⟨honce, hcollected, hcomplete⟩ := hall
  exact
    { once      := honce
      length    := fun results hr => (hcollected results hr).length
      hasResult := fun results hr i => (hcollected results hr).hasResult i i.isLt
      result    := fun results hr i => (hcollected results hr).result i i.isLt
      complete  := fun hs hr hq =>
        hcomplete (x.returned hs (hq .collectAll rfl)) (x.weight_eq_zero hr hq) }

-- A ready future and two futures of promises, where the results are numbers.
def twoPromises : Setup 3 String Nat where
  ready i         := if i.val = 0 then some (.value 10) else none
  available i t h := by
    split at h
    case isTrue  => cases h; rfl
    case isFalse => contradiction

-- The result of the second future arrives between `HasResult` and `SetContinuation`. The promise of
-- the third one is destroyed.
def arrivalRun : List (Action 3 String Nat) :=
  [.input 1 .getFuture, .input 2 .getFuture] ++ List.replicate 7 .collectAll ++
  [.input 1 (.setResult (.value 11)), .collectAll] ++ List.replicate 4 .collectAll ++
  List.replicate 4 (.input 1 (.schedule true true)) ++ [.input 2 .destroyPromise] ++
  List.replicate 4 (.input 2 (.schedule true true))

theorem collectAll_futures_arrival :
    ∃ s : Config 3 String Nat Unit Unit,
      s.published = [[.value 10, .value 11, SharedState.brokenPromise]] ∧ Collects twoPromises s := by
  obtain ⟨s, hr, hs⟩ := (twoPromises.system.restrict Bounded).exists_reachable arrivalRun
    (p := fun s : Config 3 String Nat Unit Unit =>
      s.published = [[.value 10, .value 11, SharedState.brokenPromise]]) (by decide)
  exact ⟨s, of_decide_eq_true hs, collectAll_futures hr⟩

-- The future of a promise.
def onePromise : Setup 1 String Nat where
  ready _         := none
  available _ _ h := by contradiction

-- With 257 attachments, the counter of the shared state has wrapped around to 1, so that destroying
-- the future deletes the state with the continuation.
def wrapRun : List (Action 1 String Nat) :=
  [.input 0 .getFuture] ++ List.replicate 255 (.input 0 .copyPromise) ++ List.replicate 7 .collectAll ++
  [.input 0 .destroyFuture, .input 0 (.setResult (.value 7)), .input 0 (.schedule true true)]

-- The shared state of an input is in a fault, after it has been given a result.
def Input.lost : Input ε α ξ γ → Bool
  | .localState _ => false
  | .shared c     => c.fs.hasResult && c.fault.isSome

theorem Input.lost_iff {x : Input ε α ξ γ} :
    x.lost ↔ ∃ c, x = .shared c ∧ c.fs.hasResult ∧ c.fault.isSome := by
  cases x <;> simp [Input.lost]

theorem collectAll_incomplete :
    ∃ s : Config 1 String Nat Unit Unit, onePromise.system.Reachable s ∧ ¬ Collects onePromise s := by
  obtain ⟨s, hr, hs⟩ := onePromise.system.exists_reachable wrapRun
    (p := fun s : Config 1 String Nat Unit Unit =>
      s.published = [] ∧ s.pc.next = 1 ∧ s.stepCollectAll.isNone ∧ (s.inputs 0).lost) (by decide +kernel)
  simp only [Bool.decide_and, Bool.and_eq_true, decide_eq_true_eq] at hs
  obtain ⟨hp, hn, hq, hl⟩ := hs
  obtain ⟨c, hx, hc, hf⟩ := Input.lost_iff.mp hl
  have hx (i : Fin 1) : s.inputs i = .shared c := by rw [Fin.eq_zero i, hx]
  have hf : c.fault ≠ none := fun h => by simp [h] at hf
  refine ⟨s, hr, fun h => ?_⟩
  have := h.complete (fun h => by simp [h, Pc.next] at hn) (fun i => hx i ▸ hc) fun a _ => by
    cases a
    case collectAll => exact Option.isNone_iff_eq_none.mp hq
    case input i act =>
      simp [Setup.system, Config.stepInput, hx, Lifetime.system, hf]
  simp [hp] at this

end CollectAll
end AsyncSimple
