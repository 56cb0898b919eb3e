import AsyncSimple.Sync.Lifetime
import AsyncSimple.Sync.Theorems.SharedState
import AsyncSimple.Sync.Theorems.FutureState

open Transition Counter

namespace AsyncSimple
namespace Lifetime

open Handles (StateInv StateStep Counted)

variable {ε α κ ξ γ : Type}

-- The `ContinuationReference`s on the stack of `ScheduleContinuation`.
def SchedulePc.guards : SchedulePc → Nat
  | .idle | .decide _ | .returned => 0
  | .submit                       => 2
  | _                             => 1

def SchedulePc.executing : SchedulePc → Bool
  | .running | .fallbackRunning => true
  | _                           => false

-- Whether `ScheduleContinuation` has created its guards.
def SchedulePc.started : SchedulePc → Bool
  | .idle | .decide _ => false
  | _                 => true

namespace Config

def refs (s : Config ε α κ ξ γ) : Nat :=
  s.pc.guards + s.tasks + if s.run = .running then 1 else 0

-- Everything that refers to the shared state.
def count (s : Config ε α κ ξ γ) : Nat :=
  s.holders .promise + s.holders .detaching + s.holders .future + s.refs

def attachments (s : Config ε α κ ξ γ) : Nat :=
  s.fs.lostPromises + s.fs.lostFutures + s.count

def executing (s : Config ε α κ ξ γ) : Bool :=
  s.pc.executing || s.run = .running

end Config

-- There are fewer than 256 attachments, and no promise is overwritten while there is no result.
def Bounded (s : Config ε α κ ξ γ) : Action ε α κ → Prop
  | .overwritePromise => s.attachments < 256 ∧ s.fs.hasResult
  | _                 => s.attachments < 256

instance (s : Config ε α κ ξ γ) : (a : Action ε α κ) → Decidable (Bounded s a)
  | .overwritePromise  => inferInstanceAs (Decidable (_ ∧ _))
  | .copyPromise       => inferInstanceAs (Decidable (_ < _))
  | .destroyPromise    => inferInstanceAs (Decidable (_ < _))
  | .detachOne         => inferInstanceAs (Decidable (_ < _))
  | .getFuture         => inferInstanceAs (Decidable (_ < _))
  | .destroyFuture     => inferInstanceAs (Decidable (_ < _))
  | .overwriteFuture   => inferInstanceAs (Decidable (_ < _))
  | .setResult _       => inferInstanceAs (Decidable (_ < _))
  | .setContinuation _ => inferInstanceAs (Decidable (_ < _))
  | .schedule _ _      => inferInstanceAs (Decidable (_ < _))
  | .copyTask          => inferInstanceAs (Decidable (_ < _))
  | .destroyTask       => inferInstanceAs (Decidable (_ < _))
  | .runTask           => inferInstanceAs (Decidable (_ < _))
  | .finishTask        => inferInstanceAs (Decidable (_ < _))

-- The continuation is constructed at most once. It is destroyed at most once, only after it has been
-- executed, and no later than the shared state is deleted. Once `ScheduleContinuation` and the
-- executor are done with it, or nothing is left that would call `ScheduleContinuation`, it has been
-- destroyed.
structure Kept (s : Config ε α κ ξ γ) : Prop where
  constructed : s.constructed ≤ 1
  destroyed   : s.destroyed ≤ s.constructed
  executing   : s.executing → s.constructed = 1 ∧ s.destroyed = 0
  executed    : 0 < s.destroyed → s.executed = 1
  outlived    : s.fs.deleted → s.destroyed = s.constructed
  released    : s.pc = .returned ∨ (s.pc = .idle ∧ s.holders .promise = 0) → s.refs = 0 →
    s.destroyed = s.constructed
  fault       : s.fault = none

def Run.executions : Run → Nat
  | .finished => 1
  | _         => 0

-- How far `ScheduleContinuation` and the executor have got together, where `executed` counts the
-- executions of the continuation.
inductive Stage : SchedulePc → Run → (tasks : Nat) → (accepted : Option Bool) → (executed : Nat) → Prop
  | idle      : Stage .idle .notStarted 0 none 0
  | decide    : Stage (.decide h) .notStarted 0 none 0
  | call      : Stage .call .notStarted 0 none 0
  | running   : Stage .running .notStarted 0 none 0
  | called    : Stage .called .notStarted 0 none 1
  | inlined   : Stage .returned .notStarted 0 none 1
  | submit    : Stage .submit .notStarted 0 none 0
  | submitted : (e = r.executions) → Stage .submitted r t none e
  | fallback  : (pc = .fallback ∨ pc = .fallbackRunning) → Stage pc .notStarted t (some false) 0
  | refused   : (pc = .returning ∨ pc = .returned) → Stage pc .notStarted t (some false) 1
  | accepted  :
    (pc = .returning ∨ pc = .returned) → (r ≠ .notStarted ∨ 0 < t) → (e = r.executions) →
    Stage pc r t (some true) e

theorem Stage.of_idle (h : Stage .idle r t a e) : r = .notStarted ∧ t = 0 ∧ a = none ∧ e = 0 := by
  cases h <;> simp_all

structure Inv (s : Config ε α κ ξ γ) : Prop where
  state       : StateInv s.fs s.count (s.holders .promise) s.refs
  caller      : ∀ h, s.pc = .decide h → 0 < s.holders h
  promised    : s.fs.hasResult = false → 0 < s.holders .promise ∧ s.fs.lostPromises = 0
  idle        : s.pc = .idle ↔ ¬ (s.fs.hasResult ∧ s.fs.hasContinuation)
  stage       : Stage s.pc s.run s.tasks s.accepted s.executed
  constructed : s.constructed = if s.fs.hasContinuation then 1 else 0
  destroyed   : s.destroyed = if s.pc.started ∧ s.refs = 0 then 1 else 0
  fault       : s.fault = none

variable {s s₁ s₂ s₃ : Config ε α κ ξ γ} {fs : SharedState ε α κ ξ γ} {act : Action ε α κ}

-- The last reference is gone only after the continuation has been executed.
theorem Stage.executed (h : Stage s.pc s.run s.tasks s.accepted s.executed) (hs : s.pc.started)
    (hr : s.refs = 0) : s.pc = .returned ∧ s.executed = 1 := by
  obtain ⟨fs, holders, pc, tasks, run, accepted, fault, constructed, executed, destroyed⟩ := s
  simp only [Config.refs, Nat.add_eq_zero_iff, ite_eq_right_iff, one_ne_zero, imp_false] at h hs hr ⊢
  obtain ⟨⟨hg, rfl⟩, hr⟩ := hr
  cases h
  case inlined => exact ⟨rfl, rfl⟩
  case refused hp => obtain rfl | rfl := hp <;> simp_all [SchedulePc.guards]
  case accepted hp ha he =>
    obtain rfl | rfl := hp <;> cases run <;> simp_all [SchedulePc.guards, Run.executions]
  case fallback hp => obtain rfl | rfl := hp <;> simp [SchedulePc.guards] at hg
  all_goals simp_all [SchedulePc.guards, SchedulePc.started]

-- Tasks exist only after `ScheduleContinuation` has created its guards.
theorem Stage.started (h : Stage s.pc s.run s.tasks s.accepted s.executed) (hr : 0 < s.refs) :
    s.pc.started := by
  obtain ⟨fs, holders, pc, tasks, run, accepted, fault, constructed, executed, destroyed⟩ := s
  simp only [Config.refs] at h hr ⊢
  cases h
  case fallback hp   => obtain rfl | rfl := hp <;> rfl
  case refused hp    => obtain rfl | rfl := hp <;> rfl
  case accepted hp _ _ => obtain rfl | rfl := hp <;> rfl
  all_goals simp_all [SchedulePc.guards, SchedulePc.started]

namespace Inv

theorem init : Inv (.new : Config ε α κ ξ γ) where
  state       := ⟨fun _ => ⟨rfl, rfl, rfl⟩, nofun⟩
  caller      := nofun
  promised _  := ⟨Nat.one_pos, rfl⟩
  idle        := by simp [Config.new, SharedState.attachPromise, SharedState.attachOne, SharedState.new]
  stage       := .idle
  constructed := by
    simp [Config.new, SharedState.attachPromise, SharedState.attachOne, SharedState.new,
      FutureState.hasContinuation, FutureState.new]
  destroyed   := rfl
  fault       := rfl

theorem live (i : Inv s) (h : 0 < s.count) : s.fs.deleted = false := by
  by_contra hd
  have := i.state.deleted (by simpa using hd)
  omega

theorem counted (i : Inv s) (h : 0 < s.count) :
    Counted s.fs s.count (s.holders .promise) s.refs :=
  i.state.counted (i.live h)

-- A reference keeps the continuation.
theorem kept (i : Inv s) (hr : 0 < s.refs) : s.destroyed = 0 := by
  rw [i.destroyed, if_neg (by omega)]

-- What changes only the handles and the counters.
theorem handle (i : Inv s) {holders : Holder → Nat} (hfs : fs.toFutureState = s.fs.toFutureState)
    (state : StateInv fs (holders .promise + holders .detaching + holders .future + s.refs)
      (holders .promise) s.refs)
    (caller : ∀ h, s.pc = .decide h → 0 < holders h)
    (promised : s.fs.hasResult = false → 0 < holders .promise ∧ fs.lostPromises = 0) :
    Inv { s with fs, holders } where
  state       := state
  caller      := caller
  promised    := hfs ▸ promised
  idle        := hfs ▸ i.idle
  stage       := i.stage
  constructed := hfs ▸ i.constructed
  destroyed   := i.destroyed
  fault       := i.fault

-- What `ScheduleContinuation` and the executor do.
theorem proceed (i : Inv s) {pc : SchedulePc} {tasks executed destroyed refs : Nat} {run : Run}
    {accepted : Option Bool} (hfs : fs.toFutureState = s.fs.toFutureState)
    (hl : fs.lostPromises = s.fs.lostPromises) (hi : s.pc ≠ .idle) (hp : pc.started)
    (hr : refs = pc.guards + tasks + if run = .running then 1 else 0)
    (state : StateInv fs (s.holders .promise + s.holders .detaching + s.holders .future + refs)
      (s.holders .promise) refs)
    (stage : Stage pc run tasks accepted executed)
    (hd : destroyed = if refs = 0 then 1 else 0) :
    Inv { s with fs, pc, tasks, run, accepted, executed, destroyed } where
  state        := by
    subst hr
    exact state
  caller h e   := by simp [show pc = .decide h from e, SchedulePc.started] at hp
  promised     := hfs ▸ hl ▸ i.promised
  idle         := by
    have := i.idle
    have hn : pc ≠ .idle := fun e => by simp [e, SchedulePc.started] at hp
    simp only [hi, false_iff] at this
    simpa [hn, hfs] using this
  stage        := stage
  constructed  := hfs ▸ i.constructed
  destroyed    := by
    simp only [hp, true_and, Config.refs]
    rw [hd, hr]
  fault        := i.fault

-- As long as there are references, the continuation is not destroyed.
theorem advance (i : Inv s) {pc : SchedulePc} {tasks executed refs : Nat} {run : Run}
    {accepted : Option Bool} (hfs : fs.toFutureState = s.fs.toFutureState)
    (hl : fs.lostPromises = s.fs.lostPromises) (hi : s.pc ≠ .idle) (hp : pc.started)
    (state : StateInv fs (s.holders .promise + s.holders .detaching + s.holders .future + refs)
      (s.holders .promise) refs)
    (hr : refs = pc.guards + tasks + if run = .running then 1 else 0)
    (hg : 0 < refs)
    (stage : Stage pc run tasks accepted executed)
    (hd : 0 < s.refs ∨ s.pc.started = false) :
    Inv { s with fs, pc, tasks, run, accepted, executed } := by
  refine i.proceed hfs hl hi hp hr state stage ?_
  rw [i.destroyed, if_neg, if_neg (by omega)]
  rintro ⟨hs, hr⟩
  simp [hs, hr] at hd

-- The references stay the same.
theorem keep (i : Inv s) {pc : SchedulePc} {tasks executed : Nat} {run : Run} {accepted : Option Bool}
    (hi : s.pc ≠ .idle) (hp : pc.started) (hg : 0 < s.refs)
    (hr : s.refs = pc.guards + tasks + if run = .running then 1 else 0)
    (stage : Stage pc run tasks accepted executed) :
    Inv { s with pc, tasks, run, accepted, executed } :=
  i.advance rfl rfl hi hp i.state hr hg stage (.inl hg)

end Inv

section Calls

theorem call_eq {f : SharedState ε α κ ξ γ → Except Fault (SharedState ε α κ ξ γ)}
    (hd : s.fs.deleted = false) (e : f s.fs = .ok fs) : s.call f = { s with fs } := by
  simp [Config.call, hd, e]

theorem execute_eq (hd : s.fs.deleted = false) : s.execute = s :=
  call_eq hd rfl

theorem attachReference_eq (hd : s.fs.deleted = false) :
    s.attachReference = { s with fs := s.fs.attachReference } :=
  call_eq hd rfl

-- The continuation is destroyed together with its last reference.
theorem detachReference_eq (i : Inv s) (hb : s.attachments < 256) (hr : s.refs = refs + 1) :
    ∃ fs, s.detachReference = { s with fs, destroyed := if refs = 0 then 1 else 0 } ∧
      fs.toFutureState = s.fs.toFutureState ∧ fs.lostPromises = s.fs.lostPromises ∧
      StateInv fs (s.holders .promise + s.holders .detaching + s.holders .future + refs)
        (s.holders .promise) refs := by
  have hc : s.count = s.holders .promise + s.holders .detaching + s.holders .future + refs + 1 := by
    rw [Config.count, hr]
    omega
  have hb' : s.fs.lostPromises + s.fs.lostFutures + s.count < 256 := hb
  have hd := i.live (by omega)
  have c := i.counted (by omega)
  rw [hc, hr] at c
  rw [hc] at hb'
  have h₁ : s.fs.continuation_ref_ = 1 ↔ refs = 0 := c.continuation_ref.eq_one_iff (by omega)
  obtain ⟨fs, e, state⟩ := c.detachReference (by omega) hb'
  refine ⟨fs, ?_, ?_, ?_, state⟩
  · have := i.kept (by omega)
    simp only [Config.detachReference, Config.call, hd, e, h₁, this, Nat.zero_add, Bool.false_eq_true,
      if_false]
  all_goals
    obtain ⟨_, _, _, rfl⟩ := Handles.detachReference_ok e
    rfl

@[simp]
theorem detachReference_tasks : s.detachReference.tasks = s.tasks := by
  simp only [Config.detachReference, Config.call]
  (repeat' split) <;> rfl

@[simp]
theorem detachReference_pc : s.detachReference.pc = s.pc := by
  simp only [Config.detachReference, Config.call]
  (repeat' split) <;> rfl

-- `ScheduleContinuation` or the executor destroys a reference.
theorem Inv.detachReference (i : Inv s) {pc : SchedulePc} {tasks : Nat} (hb : s.attachments < 256)
    (hi : s.pc ≠ .idle) (hp : pc.started)
    (hr : s.refs = (pc.guards + tasks + if s.run = .running then 1 else 0) + 1)
    (stage : Stage pc s.run tasks s.accepted s.executed) :
    Inv { s.detachReference with pc, tasks } := by
  obtain ⟨fs, e, hfs, hl, state⟩ := detachReference_eq i hb hr
  rw [e]
  exact i.proceed hfs hl hi hp rfl state stage rfl

end Calls

namespace Inv

-- Whoever calls `ScheduleContinuation`, or has a guard, keeps the shared state.
theorem attached (i : Inv s) (h : s.pc.guards = 0 → ∃ h, s.pc = .decide h) : 0 < s.count := by
  simp only [Config.count, Config.refs]
  by_cases hg : s.pc.guards = 0
  case neg => omega
  case pos =>
    obtain ⟨caller, hc⟩ := h hg
    have hh := i.caller caller hc
    cases caller <;> omega

theorem stepSchedule {inline accept : Bool} (i : Inv s₁) (hb : s₁.attachments < 256)
    (h : s₁.stepSchedule inline accept = some s₂) : Inv s₂ := by
  have hl := fun h => i.live (i.attached h)
  have hc := fun h => i.counted (i.attached h)
  have hg : 0 < s₁.pc.guards → 0 < s₁.refs := fun h => by simp only [Config.refs]; omega
  have hst := i.stage
  obtain ⟨fs, holders, pc, tasks, run, accepted, fault, constructed, executed, destroyed⟩ := s₁
  cases hst <;> simp only [Config.stepSchedule] at h
  case idle    => contradiction
  case inlined => contradiction
  case decide caller =>
    have hd : fs.deleted = false := hl fun _ => ⟨_, rfl⟩
    have c := hc fun _ => ⟨_, rfl⟩
    split at h <;> cases h
    case isTrue =>
      rw [attachReference_eq hd]
      exact i.advance rfl rfl nofun rfl ⟨fun _ => c.attachReference, hd ▸ nofun⟩ rfl Nat.one_pos .call
        (.inr rfl)
    case isFalse =>
      rw [attachReference_eq (s := Config.mk ..) hd, attachReference_eq hd]
      exact i.advance rfl rfl nofun rfl ⟨fun _ => c.attachReference.attachReference, hd ▸ nofun⟩ rfl
        Nat.two_pos .submit (.inr rfl)
  case call =>
    cases h
    rw [execute_eq (hl nofun)]
    exact i.keep nofun rfl (hg Nat.one_pos) rfl .running
  case running =>
    cases h
    exact i.keep nofun rfl (hg Nat.one_pos) rfl .called
  case called =>
    cases h
    rw [detachReference_tasks]
    exact i.detachReference hb nofun rfl rfl .inlined
  case submit =>
    cases h
    exact i.keep nofun rfl (hg Nat.two_pos) rfl (.submitted rfl)
  case submitted he =>
    split at h <;> split at h <;> cases h
    case isTrue ha =>
      exact i.keep nofun rfl (hg Nat.one_pos) rfl (.accepted (.inl rfl) ha he)
    case isFalse hr =>
      subst hr
      obtain rfl : executed = 0 := he
      exact i.keep nofun rfl (hg Nat.one_pos) rfl (.fallback (.inl rfl))
  case fallback hp =>
    obtain rfl | rfl := hp <;> cases h
    case inl =>
      rw [execute_eq (hl nofun)]
      exact i.keep nofun rfl (hg Nat.one_pos) rfl (.fallback (.inr rfl))
    case inr => exact i.keep nofun rfl (hg Nat.one_pos) rfl (.refused (.inl rfl))
  case refused hp =>
    obtain rfl | rfl := hp <;> cases h
    rw [detachReference_tasks]
    refine i.detachReference hb nofun rfl ?_ (.refused (.inr rfl))
    simp only [Config.refs, SchedulePc.guards]
    omega
  case accepted hp ha he =>
    obtain rfl | rfl := hp <;> cases h
    rw [detachReference_tasks]
    refine i.detachReference hb nofun rfl ?_ (.accepted (.inr rfl) ha he)
    simp only [Config.refs, SchedulePc.guards]
    omega

-- The executor has tasks only after `ScheduleContinuation` has submitted one.
theorem submitted (i : Inv s) (ht : 0 < s.tasks ∨ s.run ≠ .notStarted) :
    s.pc ≠ .idle ∧ s.pc.started := by
  have hst := i.stage
  obtain ⟨fs, holders, pc, tasks, run, accepted, fault, constructed, executed, destroyed⟩ := s
  cases hst
  case submitted       => exact ⟨nofun, rfl⟩
  case fallback hp     => obtain rfl | rfl := hp <;> exact ⟨nofun, rfl⟩
  case refused hp      => obtain rfl | rfl := hp <;> exact ⟨nofun, rfl⟩
  case accepted hp _ _ => obtain rfl | rfl := hp <;> exact ⟨nofun, rfl⟩
  all_goals simp at ht

end Inv

-- What the executor can do with its tasks at each stage.
namespace Stage

theorem copyTask (h : Stage pc r t a e) (ht : 0 < t ∨ r = .running) : Stage pc r (t + 1) a e := by
  cases h
  case submitted he      => exact .submitted he
  case fallback hp       => exact .fallback hp
  case refused hp        => exact .refused hp
  case accepted hp _ he  => exact .accepted hp (.inr (Nat.succ_pos _)) he
  all_goals simp at ht

theorem destroyTask (h : Stage pc r (t + 1) a e) (ht : ¬ (a = some true ∧ r = .notStarted ∧ t + 1 = 1)) :
    Stage pc r t a e := by
  cases h
  case submitted he     => exact .submitted he
  case fallback hp      => exact .fallback hp
  case refused hp       => exact .refused hp
  case accepted hp _ he =>
    refine .accepted hp ?_ he
    by_contra hc
    simp only [ne_eq, not_or, not_not, Nat.pos_iff_ne_zero] at hc
    exact ht ⟨rfl, hc.left, by rw [hc.right]⟩

theorem runTask (h : Stage pc .notStarted (t + 1) a e) (ha : a ≠ some false) :
    Stage pc .running t a e := by
  cases h
  case submitted he     => exact .submitted he
  case accepted hp _ he => exact .accepted hp (.inl nofun) he
  all_goals contradiction

theorem finishTask (h : Stage pc .running t a e) : Stage pc .finished (t + 1) a (e + 1) := by
  cases h
  case submitted he     => exact .submitted (he ▸ rfl)
  case accepted hp _ he => exact .accepted hp (.inl nofun) (he ▸ rfl)

end Stage

namespace Inv

theorem copyTask (i : Inv s) (ht : ¬ (s.tasks = 0 ∧ s.run ≠ .running)) :
    Inv { s.attachReference with tasks := s.tasks + 1 } := by
  have ht' : 0 < s.tasks ∨ s.run = .running := by
    simpa [or_iff_not_imp_left, Nat.pos_iff_ne_zero] using ht
  obtain ⟨hi, hp⟩ := i.submitted (ht'.imp_right fun h : s.run = .running => h ▸ nofun)
  have hg : 0 < s.refs := by
    simp only [Config.refs]
    cases ht'
    case inl => omega
    case inr h => simp only [h, if_true]; omega
  have c := i.counted (Nat.lt_of_lt_of_le hg (Nat.le_add_left ..))
  have hd := i.live (Nat.lt_of_lt_of_le hg (Nat.le_add_left ..))
  rw [attachReference_eq hd]
  refine i.advance rfl rfl hi hp ⟨fun _ => c.attachReference, hd ▸ nofun⟩ ?_ (Nat.succ_pos _)
    (i.stage.copyTask ht') (.inl hg)
  simp only [Config.refs]
  omega

theorem destroyTask (i : Inv s₁) (hb : s₁.attachments < 256) (h : s₁.destroyTask = some s₂) :
    Inv s₂ := by
  simp only [Config.destroyTask] at h
  split at h <;> cases h
  case isFalse ht =>
    obtain ⟨h₀, ht⟩ := not_or.mp ht
    obtain ⟨hi, hp⟩ := i.submitted (.inl (Nat.pos_of_ne_zero h₀))
    obtain ⟨t, e⟩ := Nat.exists_eq_succ_of_ne_zero h₀
    have hst := i.stage
    rw [e] at hst ht ⊢
    rw [detachReference_pc]
    refine i.detachReference hb hi hp ?_ (hst.destroyTask ht)
    simp only [Config.refs, e]
    omega

theorem runTask (i : Inv s) (ht : ¬ (s.tasks = 0 ∨ s.run ≠ .notStarted ∨ s.accepted = some false)) :
    Inv { s.execute with tasks := s.tasks - 1, run := .running } := by
  simp only [not_or, ne_eq, not_not] at ht
  obtain ⟨h₀, hr, ha⟩ := ht
  obtain ⟨hi, hp⟩ := i.submitted (.inl (Nat.pos_of_ne_zero h₀))
  obtain ⟨t, e⟩ := Nat.exists_eq_succ_of_ne_zero h₀
  have hg : 0 < s.refs := by simp only [Config.refs]; omega
  have hst := i.stage
  rw [e, hr] at hst
  rw [execute_eq (i.live (Nat.lt_of_lt_of_le hg (Nat.le_add_left ..))), e]
  refine i.keep hi hp hg ?_ (hst.runTask ha)
  simp only [Config.refs, e, hr, reduceCtorEq, if_true, if_false]
  omega

theorem finishTask (i : Inv s) (hr : s.run = .running) :
    Inv { s with run := .finished, tasks := s.tasks + 1, executed := s.executed + 1 } := by
  obtain ⟨hi, hp⟩ := i.submitted (.inr (hr ▸ nofun))
  have hg : 0 < s.refs := by simp only [Config.refs, hr, if_true]; omega
  have hst := i.stage
  rw [hr] at hst
  refine i.keep hi hp hg ?_ hst.finishTask
  simp only [Config.refs, hr, reduceCtorEq, if_true, if_false]
  omega

-- There are a result and a continuation now, or one of them.
theorem change (i : Inv s) (fs : SharedState ε α κ ξ γ) {holders : Holder → Nat} {h : Holder} {n : Nat}
    (hi : s.pc = .idle)
    (hh : 0 < holders h)
    (state : StateInv fs (holders .promise + holders .detaching + holders .future + s.refs)
      (holders .promise) s.refs)
    (promised : fs.hasResult = false → 0 < holders .promise ∧ fs.lostPromises = 0)
    (hn : n = if fs.hasContinuation then 1 else 0) :
    Inv ({ s with fs, holders, constructed := n }.scheduleContinuation h
      (fs.hasResult && fs.hasContinuation)) := by
  have hst := i.stage
  have hd := i.destroyed
  have hf := i.fault
  obtain ⟨_, _, pc, tasks, run, accepted, fault, _, executed, destroyed⟩ := s
  cases hi
  obtain ⟨rfl, rfl, rfl, rfl⟩ := hst.of_idle
  cases hc : fs.hasResult && fs.hasContinuation
  case true =>
    have := Bool.and_eq_true_iff.mp hc
    refine ⟨state, ?_, promised, ?_, .decide, hn, hd, hf⟩
    · rintro _ ⟨⟩
      exact hh
    · simp [Config.scheduleContinuation, this]
  case false =>
    refine ⟨state, nofun, promised, ?_, .idle, hn, hd, hf⟩
    simpa [Config.scheduleContinuation] using hc

theorem setResult {h : Holder} (i : Inv s) (hd : s.fs.deleted = false) (hh : 0 < s.holders h)
    (value : Try ε α) : Inv (s.setResult h value) := by
  cases hr : s.fs.hasResult
  case true  => simpa [Config.setResult, FutureState.setResult, hr] using i
  case false =>
    have hi : s.pc = .idle := i.idle.mpr (by simp [hr])
    have c := i.state.counted hd
    have := i.change { s.fs with toFutureState := s.fs.toFutureState.withResult value }
      (n := s.constructed) hi hh
      ⟨fun _ => ⟨c.attached, c.promise_ref, c.continuation_ref⟩, fun h => absurd (hd.symm.trans h) Bool.false_ne_true⟩
      (by simp) (by simpa using i.constructed)
    simpa [Config.setResult, FutureState.setResult_withResult hr] using this

theorem setContinuation (i : Inv s) (hd : s.fs.deleted = false) (hh : 0 < s.holders .future) (func : κ) :
    Inv (s.setContinuation func) := by
  cases hc : s.fs.hasContinuation
  case true  => simpa [Config.setContinuation, FutureState.setContinuation, hc] using i
  case false =>
    have hi : s.pc = .idle := i.idle.mpr (by simp [hc])
    have c := i.state.counted hd
    have := i.change { s.fs with toFutureState := s.fs.toFutureState.withContinuation func }
      (n := s.constructed + 1) hi hh
      ⟨fun _ => ⟨c.attached, c.promise_ref, c.continuation_ref⟩, fun h => absurd (hd.symm.trans h) Bool.false_ne_true⟩
      (by simpa using i.promised) (by simp [i.constructed, hc])
    simpa [Config.setContinuation, FutureState.setContinuation_withContinuation hc] using this

@[simp]
theorem scheduleContinuation_remove :
    (s.scheduleContinuation h d).remove k = (s.remove k).scheduleContinuation h d := by
  cases d <;> rfl

@[simp]
theorem scheduleContinuation_add :
    (s.scheduleContinuation h d).add k = (s.add k).scheduleContinuation h d := by
  cases d <;> rfl

@[simp] theorem refs_add : (s.add k).refs = s.refs := rfl
@[simp] theorem refs_remove : (s.remove k).refs = s.refs := rfl

theorem count_add : (s.add k).count = s.count + 1 := by
  simp only [Config.count, refs_add]
  cases k <;> simp [Config.add] <;> omega

theorem count_remove (h : 0 < s.holders k) : (s.remove k).count + 1 = s.count := by
  simp only [Config.count, refs_remove]
  cases k <;> simp [Config.remove] <;> omega

-- A handle through which `ScheduleContinuation` has been called is not removed.
theorem caller_remove (i : Inv s) {h : Holder} (hu : s.uses k < s.holders k) (hc : s.pc = .decide h) :
    0 < (s.remove k).holders h := by
  simp only [Config.remove, Function.update_apply]
  split
  case isFalse => exact i.caller h hc
  case isTrue e =>
    subst e
    simp only [Config.uses, hc, if_true] at hu
    omega

theorem caller_add (h : Holder) (hc : 0 < s.holders h) : 0 < (s.add k).holders h := by
  simp only [Config.add, Function.update_apply]
  split <;> omega

theorem destroyPromise (i : Inv s) (hb : s.attachments < 256)
    (hu : s.uses .promise < s.holders .promise) :
    Inv ((s.detachPromise.remove .promise).add .detaching) := by
  obtain ⟨n, hn⟩ := Nat.exists_eq_succ_of_ne_zero (Nat.ne_zero_of_lt hu)
  have hb' : s.fs.lostPromises + s.fs.lostFutures + s.count < 256 := hb
  have hc : s.count = s.holders .promise + s.holders .detaching + s.holders .future + s.refs := rfl
  have hd := i.live (by omega)
  have c := i.counted (by omega)
  have cp : Counts s.fs.promise_ref_ (s.fs.lostPromises + n + 1) := c.promise_ref.congr (by rw [hn]; rfl)
  have h₁ : s.fs.promise_ref_ ≥ 1 := cp.one_le (by omega)
  have h₂ : s.fs.promise_ref_ = 1 ↔ s.fs.lostPromises + n = 0 := cp.eq_one_iff (by omega)
  -- What the promise leaves behind, apart from a result.
  have hh : 0 < ((s.remove .promise).add .detaching).holders .detaching := by simp [Config.add]
  have hp : ((s.remove .promise).add .detaching).holders .promise = n := by
    simp [Config.add, Config.remove, hn]
  have state : StateInv { s.fs with promise_ref_ := s.fs.promise_ref_ - 1 }
      ((s.remove .promise).add .detaching).count
      (((s.remove .promise).add .detaching).holders .promise) s.refs := by
    refine ⟨fun _ => ⟨c.attached.congr ?_, cp.dec.congr (by rw [hp]), c.continuation_ref⟩,
      fun h => absurd (hd.symm.trans h) Bool.false_ne_true⟩
    simp only [Config.count, Config.add, Config.remove, Config.refs, hn, Function.update_apply,
      reduceCtorEq, if_true, if_false]
    omega
  simp only [Config.detachPromise, h₁, if_true]
  split
  case isTrue h =>
    simp only [Bool.and_eq_true, Bool.not_eq_true', decide_eq_true_eq] at h
    obtain ⟨hr, _⟩ := h
    have hi : s.pc = .idle := i.idle.mpr (by simp [hr])
    simp only [Config.setResult, FutureState.setResult_withResult hr]
    have := i.change (n := s.constructed)
      { s.fs with
        promise_ref_  := s.fs.promise_ref_ - 1
        toFutureState := s.fs.toFutureState.withResult SharedState.brokenPromise }
      hi hh
      ⟨fun h => ⟨(state.counted h).attached, (state.counted h).promise_ref,
        (state.counted h).continuation_ref⟩, state.deleted⟩ (by simp) (by simpa using i.constructed)
    rw [scheduleContinuation_remove, scheduleContinuation_add]
    simp only [FutureState.hasResult_withResult, FutureState.hasContinuation_withResult,
      Bool.true_and] at this
    exact this
  case isFalse h =>
    simp only [Bool.and_eq_true, Bool.not_eq_true', decide_eq_true_eq, not_and, h₂] at h
    refine i.handle rfl state (fun h hc => caller_add h (i.caller_remove hu hc)) fun hr => ?_
    have hl := (i.promised hr).right
    have := h hr
    exact ⟨Nat.lt_of_lt_of_eq (by omega) hp.symm, hl⟩

-- A new handle.
theorem attach (i : Inv s) {k : Holder} (hp : 0 < s.holders .promise)
    (hfs : fs.toFutureState = s.fs.toFutureState) (hl : fs.lostPromises = s.fs.lostPromises)
    (e : StateStep s.fs s.count (s.holders .promise) s.refs fs (s.count + 1)
      ((s.add k).holders .promise) s.refs)
    (hb : s.attachments < 256) : Inv ({ s with fs }.add k) := by
  have hd := i.live (Nat.lt_of_lt_of_le hp (by simp only [Config.count]; omega))
  have state := e.inv i.state hd hb (Nat.le_add_left ..)
  rw [← count_add (k := k)] at state
  refine i.handle hfs state (fun h hc => caller_add h (i.caller h hc)) fun hr => ⟨?_, ?_⟩
  · exact caller_add (s := s) .promise (i.promised hr).left
  · exact hl ▸ (i.promised hr).right

-- A handle that is destroyed or overwritten.
theorem detach (i : Inv s) {k : Holder} (hu : s.uses k < s.holders k)
    (hfs : fs.toFutureState = s.fs.toFutureState)
    (hl : s.fs.hasResult = false → fs.lostPromises = s.fs.lostPromises ∧ k ≠ .promise)
    (e : StateStep s.fs ((s.remove k).count + 1) (s.holders .promise) s.refs fs (s.remove k).count
      ((s.remove k).holders .promise) s.refs)
    (hb : s.attachments < 256) : Inv ({ s with fs }.remove k) := by
  have hk := count_remove (Nat.zero_lt_of_lt hu)
  have hd := i.live (hk ▸ Nat.succ_pos _)
  rw [hk] at e
  have state := e.inv i.state hd hb (Nat.le_add_left ..)
  refine i.handle hfs state (fun h hc => i.caller_remove hu hc) fun hr => ?_
  obtain ⟨hl, hk⟩ := hl hr
  rw [hl]
  refine (i.promised hr).imp_left fun hp => ?_
  simpa only [Config.remove, Function.update_of_ne hk.symm] using hp

theorem detachOne (i : Inv s) {k : Holder} (hk : k ≠ .promise) (hu : s.uses k < s.holders k)
    (hb : s.attachments < 256) : Inv ((s.call (·.detachOne)).remove k) := by
  have hc := count_remove (Nat.zero_lt_of_lt hu)
  have hd := i.live (hc ▸ Nat.succ_pos _)
  have c := i.counted (hc ▸ Nat.succ_pos _)
  rw [← hc] at c
  obtain ⟨fs, e, _⟩ := c.detachOne (hc ▸ hb)
  rw [call_eq hd e]
  obtain ⟨attached_, deleted, hfs⟩ := Handles.detachOne_ok e
  refine i.detach hu (hfs ▸ rfl) (fun _ => ⟨hfs ▸ rfl, hk⟩) ?_ hb
  have hp : (s.remove k).holders .promise = s.holders .promise := Function.update_of_ne hk.symm ..
  rw [hp]
  exact .detachOne e

theorem step (i : Inv s₁) (hb : Bounded s₁ act) (h : system.step s₁ act = some s₂) : Inv s₂ := by
  have hb₁ : s₁.attachments < 256 := by
    cases act
    case overwritePromise => exact hb.left
    all_goals exact hb
  have live {k : Holder} (h : 0 < s₁.holders k) : s₁.fs.deleted = false :=
    i.live (by simp only [Config.count]; cases k <;> omega)
  simp only [system, i.fault, if_true] at h
  cases act <;> simp only [Config.step] at h
  case schedule    => exact i.stepSchedule hb₁ h
  case destroyTask => exact i.destroyTask hb₁ h
  all_goals split at h <;> cases h
  case copyPromise hp =>
    have hp := Nat.pos_of_ne_zero hp
    rw [call_eq (f := (.ok ·.attachPromise)) (live hp) rfl]
    exact i.attach hp rfl rfl .attachPromise hb₁
  case destroyPromise hu => exact i.destroyPromise hb₁ (Nat.lt_of_not_le hu)
  case detachOne hu      => exact i.detachOne nofun (Nat.lt_of_not_le hu) hb₁
  case destroyFuture hu  => exact i.detachOne nofun (Nat.lt_of_not_le hu) hb₁
  case overwritePromise hu =>
    have hu := Nat.lt_of_not_le hu
    obtain ⟨n, hn⟩ := Nat.exists_eq_succ_of_ne_zero (Nat.ne_zero_of_lt hu)
    refine i.detach hu rfl (fun hr => absurd (hb.right.symm.trans hr) nofun) ?_ hb₁
    have hp : s₁.holders .promise = (s₁.remove .promise).holders .promise + 1 := by
      simp [Config.remove, hn]
    nth_rewrite 1 [hp]
    exact .losePromise
  case overwriteFuture hu =>
    exact i.detach (Nat.lt_of_not_le hu) rfl (fun _ => ⟨rfl, nofun⟩) .loseFuture hb₁
  case getFuture hp =>
    have hp := Nat.pos_of_ne_zero hp
    rw [call_eq (f := (.ok ·.attachOne)) (live hp) rfl]
    exact i.attach hp rfl rfl .attachOne hb₁
  case setResult hp =>
    have hp := Nat.pos_of_ne_zero hp
    exact i.setResult (live hp) hp _
  case setContinuation hp =>
    have hp := Nat.pos_of_ne_zero hp
    exact i.setContinuation (live hp) hp _
  case copyTask ht   => exact i.copyTask ht
  case runTask ht    => exact i.runTask ht
  case finishTask ht => exact i.finishTask ht

theorem reachable (h : (system.restrict Bounded).Reachable s) : Inv s := by
  refine h.invariant (S := system.restrict Bounded) init fun i hs => ?_
  obtain ⟨hb, hs⟩ := System.restrict_step.mp hs
  exact i.step hb hs

theorem constructed_of_started (i : Inv s) (hp : s.pc.started) : s.constructed = 1 := by
  have hi : s.pc ≠ .idle := fun h => by simp [h, SchedulePc.started] at hp
  have hc : s.fs.hasResult ∧ s.fs.hasContinuation := by simpa using mt i.idle.mpr hi
  rw [i.constructed, if_pos hc.right]

-- Once nothing is left that would destroy the continuation, it has been destroyed.
theorem destroyed_eq (i : Inv s) (hp : ∀ h, s.pc ≠ .decide h) (hr : s.refs = 0)
    (hh : s.pc = .idle → s.holders .promise = 0) : s.destroyed = s.constructed := by
  cases hs : s.pc.started
  case true => rw [i.constructed_of_started hs, i.destroyed, if_pos ⟨hs, hr⟩]
  case false =>
    have hi : s.pc = .idle := by cases hc : s.pc <;> simp_all [SchedulePc.started]
    have hh := hh hi
    have hc : s.fs.hasContinuation = false := by
      cases hf : s.fs.hasResult
      case true  => simpa [hf] using i.idle.mp hi
      case false => exact absurd (i.promised hf).left (by omega)
    rw [i.destroyed, i.constructed, hs, hc]
    simp

theorem kept_of (i : Inv s) : Kept s where
  constructed := by
    rw [i.constructed]
    split <;> omega
  destroyed := by
    rw [i.destroyed]
    split
    case isTrue h  => rw [i.constructed_of_started h.left]
    case isFalse h => exact Nat.zero_le _
  executing he := by
    have hr : 0 < s.refs := by
      simp only [Config.executing, Bool.or_eq_true, decide_eq_true_eq] at he
      simp only [Config.refs]
      cases he
      case inl he =>
        cases hs : s.pc <;> simp [hs, SchedulePc.executing] at he <;> simp [SchedulePc.guards]
      case inr he => simp [he]
    exact ⟨i.constructed_of_started (i.stage.started hr), i.kept hr⟩
  executed hd := by
    rw [i.destroyed] at hd
    split at hd
    case isTrue h  => exact (i.stage.executed h.left h.right).right
    case isFalse h => contradiction
  outlived hd := by
    have hc := i.state.deleted hd
    simp only [Config.count] at hc
    refine i.destroyed_eq (fun h hp => ?_) (by omega) (fun _ => by omega)
    have := i.caller h hp
    cases h <;> omega
  released hp hr := by
    refine i.destroyed_eq (fun h hd => by simp [hd] at hp) hr fun hi => ?_
    simpa [hi] using hp
  fault := i.fault

end Inv

-- With fewer than 256 attachments, the continuation is destroyed exactly once, after its execution,
-- and the shared state outlives it.
theorem continuation_kept (h : (system.restrict Bounded).Reachable s) : Kept s :=
  (Inv.reachable h).kept_of

-- What no step undoes.
structure Mono (s₁ s₂ : Config ε α κ ξ γ) : Prop where
  executed  : s₁.executed ≤ s₂.executed
  destroyed : s₁.destroyed ≤ s₂.destroyed
  result    : s₁.fs.hasResult → s₂.fs.hasResult ∧ s₂.fs.try_value_ = s₁.fs.try_value_

namespace Mono

theorem rfl : Mono s s :=
  ⟨Nat.le_refl _, Nat.le_refl _, fun h => ⟨h, by rfl⟩⟩

theorem trans (h₁ : Mono s₁ s₂) (h₂ : Mono s₂ s₃) : Mono s₁ s₃ where
  executed  := h₁.executed.trans h₂.executed
  destroyed := h₁.destroyed.trans h₂.destroyed
  result h  := by
    obtain ⟨hr, hv⟩ := h₁.result h
    exact (h₂.result hr).imp_right (·.trans hv)

-- The other fields may change in any way.
theorem congr (h : Mono s s₁) (hf : s₂.fs.toFutureState = s₁.fs.toFutureState := by rfl)
    (he : s₁.executed ≤ s₂.executed := by exact Nat.le_refl _)
    (hd : s₁.destroyed ≤ s₂.destroyed := by exact Nat.le_refl _) : Mono s s₂ where
  executed  := h.executed.trans he
  destroyed := h.destroyed.trans hd
  result hr := by
    rw [hf]
    exact h.result hr

theorem call {f : SharedState ε α κ ξ γ → Except Fault (SharedState ε α κ ξ γ)}
    (hf : ∀ {fs fs'}, f fs = .ok fs' → fs'.toFutureState = fs.toFutureState) : Mono s (s.call f) := by
  simp only [Config.call]
  split
  case isTrue => exact rfl.congr
  case isFalse =>
    split
    case h_1 e => exact rfl.congr (hf e)
    case h_2   => exact rfl.congr

theorem attachReference : Mono s s.attachReference :=
  call fun e => Except.ok.inj e ▸ by rfl

theorem execute : Mono s s.execute :=
  call fun e => Except.ok.inj e ▸ by rfl

theorem detachReference : Mono s s.detachReference := by
  have := call (s := { s with destroyed := s.destroyed + if s.fs.continuation_ref_ = 1 then 1 else 0 })
    (f := (·.detachReference)) fun e => by
      obtain ⟨_, _, _, rfl⟩ := Handles.detachReference_ok e
      rfl
  exact ⟨this.executed, (Nat.le_add_right ..).trans this.destroyed, this.result⟩

theorem detachOne : Mono s (s.call (·.detachOne)) :=
  call fun e => by
    obtain ⟨_, _, rfl⟩ := Handles.detachOne_ok e
    rfl

theorem setResult (h : Holder) (value : Try ε α) : Mono s (s.setResult h value) := by
  cases hr : s.fs.hasResult
  case true =>
    have : s.setResult h value = s := by simp [Config.setResult, FutureState.setResult, hr]
    rw [this]
    exact rfl
  case false =>
    simp only [Config.setResult, FutureState.setResult_withResult hr]
    cases s.fs.hasContinuation
    all_goals exact ⟨Nat.le_refl _, Nat.le_refl _, fun h => absurd (hr.symm.trans h) Bool.false_ne_true⟩

theorem setContinuation (func : κ) : Mono s (s.setContinuation func) := by
  cases hc : s.fs.hasContinuation
  case true =>
    have : s.setContinuation func = s := by
      simp [Config.setContinuation, FutureState.setContinuation, hc]
    rw [this]
    exact rfl
  case false =>
    simp only [Config.setContinuation, FutureState.setContinuation_withContinuation hc]
    have hr (h : s.fs.hasResult) : (s.fs.withContinuation func).hasResult :=
      FutureState.hasResult_withContinuation.trans h
    cases s.fs.hasResult
    all_goals exact ⟨Nat.le_refl _, Nat.le_refl _, fun h => ⟨hr h, by rfl⟩⟩

theorem detachPromise : Mono s s.detachPromise := by
  simp only [Config.detachPromise]
  split
  case isFalse => exact rfl.congr
  case isTrue =>
    split
    case isTrue =>
      have := setResult (s := { s with fs.promise_ref_ := s.fs.promise_ref_ - 1 }) .detaching
        SharedState.brokenPromise
      exact ⟨this.executed, this.destroyed, this.result⟩
    case isFalse => exact rfl.congr

theorem stepSchedule {inline accept : Bool} (h : s₁.stepSchedule inline accept = some s₂) :
    Mono s₁ s₂ := by
  simp only [Config.stepSchedule] at h
  split at h
  case h_1 =>
    split at h <;> cases h
    case isTrue  => exact attachReference.congr
    case isFalse =>
      exact (attachReference.trans attachReference).congr
  case h_2 =>
    cases h
    exact execute.congr
  case h_3 =>
    cases h
    exact rfl.congr (by rfl) (Nat.le_succ _)
  case h_4 =>
    cases h
    exact detachReference.congr
  case h_5 =>
    cases h
    exact rfl.congr
  case h_6 =>
    split at h <;> split at h <;> cases h
    all_goals exact rfl.congr
  case h_7 =>
    cases h
    exact execute.congr
  case h_8 =>
    cases h
    exact rfl.congr (by rfl) (Nat.le_succ _)
  case h_9 =>
    cases h
    exact detachReference.congr
  all_goals contradiction

theorem step (h : system.step s₁ act = some s₂) : Mono s₁ s₂ := by
  simp only [system] at h
  split at h
  case isFalse => contradiction
  case isTrue =>
    cases act <;> simp only [Config.step, Config.destroyTask] at h
    case schedule => exact stepSchedule h
    all_goals split at h <;> cases h
    case copyPromise      => exact (call fun e => Except.ok.inj e ▸ by rfl).congr
    case destroyPromise   => exact detachPromise.congr
    case detachOne        => exact detachOne.congr
    case destroyFuture    => exact detachOne.congr
    case overwritePromise => exact rfl.congr
    case overwriteFuture  => exact rfl.congr
    case getFuture        => exact (call fun e => Except.ok.inj e ▸ by rfl).congr
    case setResult        => exact setResult _ _
    case setContinuation  => exact setContinuation _
    case copyTask         => exact attachReference.congr
    case destroyTask      => exact detachReference.congr
    case runTask          => exact execute.congr
    case finishTask       => exact rfl.congr (by rfl) (Nat.le_succ _)

end Mono

-- Only `SetContinuation` constructs a continuation.

@[simp]
theorem call_constructed : (s.call f).constructed = s.constructed := by
  simp only [Config.call]
  (repeat' split) <;> rfl

@[simp]
theorem setResult_constructed {h : Holder} {value : Try ε α} :
    (s.setResult h value).constructed = s.constructed := by
  simp only [Config.setResult]
  split
  case h_1 => cases ‹Bool› <;> rfl
  case h_2 => rfl

@[simp]
theorem detachPromise_constructed : s.detachPromise.constructed = s.constructed := by
  simp only [Config.detachPromise]
  (repeat' split) <;> simp

theorem step_constructed (h : system.step s₁ act = some s₂) (hne : ∀ func, act ≠ .setContinuation func) :
    s₂.constructed = s₁.constructed := by
  simp only [system] at h
  split at h
  case isFalse => contradiction
  case isTrue =>
    cases act <;> simp only [Config.step, Config.destroyTask, Config.stepSchedule] at h
    case setContinuation func => exact absurd rfl (hne func)
    all_goals (repeat' split at h) <;> cases h
    all_goals simp [Config.add, Config.remove, Config.attachReference, Config.detachReference,
      Config.execute]

-- Only the destruction of a future, or a move assignment, reduces the number of futures.

@[simp]
theorem call_holders : (s.call f).holders = s.holders := by
  simp only [Config.call]
  (repeat' split) <;> rfl

@[simp]
theorem setResult_holders {h : Holder} {value : Try ε α} : (s.setResult h value).holders = s.holders := by
  simp only [Config.setResult]
  split
  case h_1 => cases ‹Bool› <;> rfl
  case h_2 => rfl

@[simp]
theorem setContinuation_holders {func : κ} : (s.setContinuation func).holders = s.holders := by
  simp only [Config.setContinuation]
  split
  case h_1 => cases ‹Bool› <;> rfl
  case h_2 => rfl

@[simp]
theorem detachPromise_holders : s.detachPromise.holders = s.holders := by
  simp only [Config.detachPromise]
  (repeat' split) <;> simp

theorem step_future (h : system.step s₁ act = some s₂) (hd : act ≠ .destroyFuture)
    (ho : act ≠ .overwriteFuture) : s₁.holders .future ≤ s₂.holders .future := by
  simp only [system] at h
  split at h
  case isFalse => contradiction
  case isTrue =>
    cases act <;> simp only [Config.step, Config.destroyTask, Config.stepSchedule] at h
    case destroyFuture   => exact absurd rfl hd
    case overwriteFuture => exact absurd rfl ho
    all_goals (repeat' split at h) <;> cases h
    all_goals simp [Config.add, Config.remove, Config.attachReference, Config.detachReference,
      Config.execute]

-- The futures that are left, when one of them is destroyed or overwritten.
theorem step_future_of_ne_one (h : system.step s₁ act = some s₂) (hn : s₁.holders .future ≠ 1)
    (hp : 0 < s₁.holders .future) : 0 < s₂.holders .future := by
  by_cases hd : act = .destroyFuture ∨ act = .overwriteFuture
  case neg =>
    obtain ⟨hd, ho⟩ := not_or.mp hd
    exact hp.trans_le (step_future h hd ho)
  case pos =>
    simp only [system] at h
    split at h
    case isFalse => contradiction
    case isTrue =>
      obtain rfl | rfl := hd <;> simp only [Config.step] at h <;> split at h <;> cases h
      all_goals
        simp only [Config.remove, call_holders, Function.update_self]
        omega

namespace Inv

theorem executed_le (i : Inv s) : s.executed ≤ 1 := by
  have hst := i.stage
  have hr (r : Run) : r.executions ≤ 1 := by cases r <;> simp [Run.executions]
  obtain ⟨_, _, pc, tasks, run, accepted, _, _, executed, _⟩ := s
  cases hst
  case submitted he    => exact he ▸ hr _
  case accepted _ _ he => exact he ▸ hr _
  all_goals simp

-- A continuation is executed only once it has been constructed, and there is a result.
theorem of_executed (i : Inv s) (he : 0 < s.executed) : s.constructed = 1 ∧ s.fs.hasResult := by
  have hi : s.pc ≠ .idle := fun hi => by
    have hst := i.stage
    rw [hi] at hst
    have := hst.of_idle.right.right.right
    omega
  have hc : s.fs.hasResult ∧ s.fs.hasContinuation := by simpa using mt i.idle.mpr hi
  exact ⟨by rw [i.constructed, if_pos hc.right], hc.left⟩

-- The first call of `SetContinuation` constructs the continuation.
theorem setContinuation_some {func : κ} (i : Inv s₁) (hc : s₁.constructed = 0)
    (h : system.step s₁ (.setContinuation func) = some s₂) :
    s₂.constructed = 1 ∧ s₂.executed = s₁.executed ∧ s₂.destroyed = s₁.destroyed := by
  have hf : s₁.fs.hasContinuation = false := by
    have := i.constructed
    simpa [hc] using this
  simp only [system, i.fault, if_true, Config.step] at h
  split at h <;> cases h
  simp only [Config.setContinuation, FutureState.setContinuation_withContinuation hf, hc]
  cases s₁.fs.hasResult <;> exact ⟨rfl, rfl, rfl⟩

-- When no step is left for `ScheduleContinuation` and the executor, they are done.
theorem settled (i : Inv s) (hs : ∀ inline accept, s.stepSchedule inline accept = none)
    (hr : system.step s (.runTask : Action ε α κ) = none)
    (hf : system.step s (.finishTask : Action ε α κ) = none)
    (hd : system.step s (.destroyTask : Action ε α κ) = none) :
    (s.pc = .idle ∨ s.pc = .returned) ∧ s.refs = 0 := by
  simp only [system, i.fault, if_true, Config.step, Config.destroyTask] at hr hf hd
  have hpc : s.pc = .idle ∨ s.pc = .returned := by
    have h₁ := hs false false
    have h₂ := hs false true
    cases hp : s.pc <;> simp only [Config.stepSchedule, hp] at h₁ h₂ <;> try simp
    case submitted =>
      split at h₁
      case isTrue   => contradiction
      case isFalse h =>
        split at h₂
        case isTrue  => split at h₂ <;> simp_all
        case isFalse => contradiction
    all_goals simp at h₁
  have hrun : s.run ≠ .running := fun h => by simp [h] at hf
  have htasks : s.tasks = 0 := by
    by_contra ht
    by_cases hn : s.run = .notStarted ∧ s.accepted ≠ some false
    · simp [ht, hn] at hr
    · simp only [ht, false_or] at hd
      split at hd
      case isTrue h  => exact hn ⟨h.right.left, by rw [h.left]; nofun⟩
      case isFalse h => contradiction
  refine ⟨hpc, ?_⟩
  simp only [Config.refs, htasks, hrun, if_false]
  obtain h | h := hpc <;> simp [h, SchedulePc.guards]

end Inv

-- The executor copies the task, while it runs it, and destroys the copies only after everything else
-- is gone.
def taskRun : List (Action Unit Nat String) :=
  [.getFuture, .setContinuation "use", .setResult (.value 7), .schedule false true,
    .schedule false true, .runTask, .schedule false true, .copyTask, .finishTask,
    .schedule false true, .destroyPromise, .detachOne, .destroyFuture, .destroyTask, .destroyTask]

theorem continuation_kept_task :
    ∃ s : Config Unit Nat String Unit Unit, s.destroyed = 1 ∧ s.fs.deleted ∧ Kept s := by
  obtain ⟨s, hr, hs⟩ := (system.restrict Bounded).exists_reachable taskRun
    (p := fun s : Config Unit Nat String Unit Unit => s.destroyed = 1 ∧ s.fs.deleted) (by decide)
  simp only [Bool.decide_and, Bool.and_eq_true, decide_eq_true_eq] at hs
  exact ⟨s, hs.left, hs.right, continuation_kept hr⟩

-- With 257 attachments, the counter has wrapped around to 1.
def wrapRun : List (Action Unit Nat String) :=
  [.getFuture, .setContinuation "use"] ++ List.replicate 255 .copyPromise ++ [.destroyFuture]

-- The last promise is overwritten by move assignment.
def overwriteRun : List (Action Unit Nat String) :=
  [.getFuture, .setContinuation "use", .overwritePromise, .destroyFuture]

theorem continuation_lost :
    (∃ s : Config Unit Nat String Unit Unit, system.Reachable s ∧ s.fs.deleted ∧ ¬ Kept s) ∧
    ∃ s : Config Unit Nat String Unit Unit, system.Reachable s ∧ (∀ h, s.holders h = 0) ∧ ¬ Kept s := by
  constructor
  · obtain ⟨s, hr, hs⟩ := system.exists_reachable wrapRun
      (p := fun s : Config Unit Nat String Unit Unit =>
        s.fs.deleted ∧ s.constructed = 1 ∧ s.destroyed = 0) (by decide +kernel)
    simp only [Bool.decide_and, Bool.and_eq_true, decide_eq_true_eq] at hs
    obtain ⟨hd, hc, h₀⟩ := hs
    refine ⟨s, hr, hd, fun h => ?_⟩
    have := h.outlived hd
    omega
  · obtain ⟨s, hr, hs⟩ := system.exists_reachable overwriteRun
      (p := fun s : Config Unit Nat String Unit Unit =>
        s.holders .promise = 0 ∧ s.holders .detaching = 0 ∧ s.holders .future = 0 ∧ s.pc = .idle ∧
          s.refs = 0 ∧ s.constructed = 1 ∧ s.destroyed = 0) (by decide)
    simp only [Bool.decide_and, Bool.and_eq_true, decide_eq_true_eq] at hs
    obtain ⟨h₁, h₂, h₃, hp, hs, hc, h₀⟩ := hs
    refine ⟨s, hr, fun h => by cases h <;> assumption, fun h => ?_⟩
    have := h.released (.inr ⟨hp, h₁⟩) hs
    omega

end Lifetime
end AsyncSimple
