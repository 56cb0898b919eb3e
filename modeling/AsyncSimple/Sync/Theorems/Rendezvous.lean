import AsyncSimple.Sync.Rendezvous

open Transition

namespace AsyncSimple

namespace Caller

def peer : Caller Unit → Caller Unit
  | result _     => continuation
  | continuation => result ()

@[simp]
theorem peer_ne (c : Caller Unit) : c.peer ≠ c := by
  cases c <;> simp [peer]

@[simp]
theorem peer_peer (c : Caller Unit) : c.peer.peer = c := by
  cases c <;> rfl

theorem eq_or_eq_peer (c d : Caller Unit) : d = c ∨ d = c.peer := by
  cases c <;> cases d <;> simp [peer]

@[simp]
theorem peer_opposite (c : Caller Unit) : c.peer.opposite = c.only := by
  cases c <;> rfl

@[simp]
theorem opposite_ne_kStart (c : Caller ι) : c.opposite ≠ .kStart := by
  cases c <;> simp [opposite]

@[simp]
theorem not_hasSettled_kStart (c : Caller ι) : c.hasSettled .kStart = false := by
  cases c <;> simp [hasSettled]

@[simp]
theorem not_hasSettled_opposite (c : Caller ι) : c.hasSettled c.opposite = false := by
  cases c <;> simp [hasSettled, opposite]

end Caller

namespace Rendezvous

variable {ε α κ ξ γ : Type} {m : Setup ε α κ ξ γ Unit} {s s₁ s₂ : Config ε α κ ξ γ Unit}
variable {c d : Caller Unit} {r : Reply ε} {a : Action ε Unit}

-- A call that has not tried to move the state yet.
inductive Early : Pc ε → Prop
  | check    : Early .check
  | write    : Early .write
  | load     : Early .load
  | casStart : Early .casStart

-- A call that has found the state already moved by its peer.
inductive Raced (c : Caller Unit) : Pc ε → Prop
  | assertMoved : Raced c (.assertMoved c.opposite)
  | casDone     : Raced c (.casDone c.opposite)

structure Idle (s : Config ε α κ ξ γ Unit) : Prop where
  tasks    : s.tasks = 0
  doneBy   : s.doneBy = []
  calls    : s.calls = []
  handoffs : s.handoffs = []
  invoked  : s.invoked = []

theorem Idle.goto (i : Idle s) : Idle (s.goto c p) :=
  ⟨i.tasks, i.doneBy, i.calls, i.handoffs, i.invoked⟩

theorem Idle.setState (i : Idle s) : Idle (s.setState state) :=
  ⟨i.tasks, i.doneBy, i.calls, i.handoffs, i.invoked⟩

theorem Idle.write (i : Idle s) : Idle (m.write s c) := by
  cases c <;> exact ⟨i.tasks, i.doneBy, i.calls, i.handoffs, i.invoked⟩

def Written (m : Setup ε α κ ξ γ Unit) (s : Config ε α κ ξ γ Unit) : Caller Unit → Prop
  | .result i     => s.fs.try_value_ = m.value i
  | .continuation => s.fs.continuation_ = some m.func

-- What has become of the continuation while caller `c` runs `ScheduleContinuation`.
inductive Delivery (m : Setup ε α κ ξ γ Unit) (c : Caller Unit) (s : Config ε α κ ξ γ Unit) : Prop
  | entry (pc : s.pc c = .schedule .entry) (calls : s.calls = []) (handoffs : s.handoffs = [])
      (invoked : s.invoked = []) (tasks : s.tasks = 0)
  | running {p : SchedulePc} (pc : s.pc c = .schedule p) (ne : p ≠ .entry) (calls : s.calls = [c])
      (handoffs : s.handoffs = []) (invoked : s.invoked = []) (tasks : s.tasks = 0)
  | pending {call : FutureState.Submission ξ γ} (pc : s.pc c = .returned) (calls : s.calls = [c])
      (handoffs : s.handoffs = [.accepted call]) (invoked : s.invoked = []) (tasks : s.tasks = 1)
  | delivered {h : Handoff ξ γ} (pc : s.pc c = .returned ∨ ∃ x, s.pc c = .threw x)
      (calls : s.calls = [c]) (handoffs : s.handoffs = [h])
      (invoked : s.invoked = [(some m.func, m.value ())]) (tasks : s.tasks = 0)
  | failed (pc : s.pc c = .nullExecutor ∨ ∃ x, s.pc c = .threw x) (calls : s.calls = [c])
      (handoffs : s.handoffs = []) (invoked : s.invoked = []) (tasks : s.tasks = 0)

-- The phases of the protocol: no caller has moved the state, all but `c` have, or `c` has as well.
inductive Phase (m : Setup ε α κ ξ γ Unit) (s : Config ε α κ ξ γ Unit) : Prop
  | start (state : s.fs.state_ = .kStart) (early : ∀ c, Early (s.pc c)) (idle : Idle s)
  | half (c : Caller Unit) (state : s.fs.state_ = c.opposite) (peer : s.pc c.peer = .returned)
      (pc : Early (s.pc c) ∨ Raced c (s.pc c)) (idle : Idle s)
  | done (c : Caller Unit) (state : s.fs.state_ = .kDone) (doneBy : s.doneBy = [c])
      (peer : s.pc c.peer = .returned) (delivery : Delivery m c s)

structure Inv (m : Setup ε α κ ξ γ Unit) (s : Config ε α κ ξ γ Unit) : Prop where
  phase   : Phase m s
  written : ∀ c, s.pc c ≠ .check → s.pc c ≠ .write → Written m s c

theorem Inv.init : Inv m m.init where
  phase   := .start rfl (fun _ => .check) ⟨rfl, rfl, rfl, rfl, rfl⟩
  written := by simp [Setup.init]

@[simp]
theorem pc_goto_self (s : Config ε α κ ξ γ Unit) (c : Caller Unit) (p : Pc ε) :
    (s.goto c p).pc c = p := by
  simp [Config.goto]

@[simp]
theorem pc_goto_peer (s : Config ε α κ ξ γ Unit) (c : Caller Unit) (p : Pc ε) :
    (s.goto c p).pc c.peer = s.pc c.peer := by
  simp [Config.goto]

theorem stepSchedule_fs (p : SchedulePc) : (Setup.stepSchedule s c r p).fs = s.fs := by
  cases p <;> simp only [Setup.stepSchedule] <;> (repeat' split) <;> rfl

theorem stepSchedule_doneBy (p : SchedulePc) : (Setup.stepSchedule s c r p).doneBy = s.doneBy := by
  cases p <;> simp only [Setup.stepSchedule] <;> (repeat' split) <;> rfl

theorem stepSchedule_pc_peer (p : SchedulePc) :
    (Setup.stepSchedule s c r p).pc c.peer = s.pc c.peer := by
  cases p <;> simp only [Setup.stepSchedule] <;> (repeat' split) <;> simp <;> rfl

-- A step of one caller does not move the other one.
theorem stepCaller_pc_peer (h : m.stepCaller s₁ c r = some s₂) : s₂.pc c.peer = s₁.pc c.peer := by
  cases hp : s₁.pc c <;> simp only [Setup.stepCaller, hp] at h
  case schedule p =>
    cases h
    exact stepSchedule_pc_peer p
  all_goals
    (repeat' split at h) <;> cases h <;> simp
  all_goals
    cases c <;> rfl

-- Only the step at `write` changes a slot of the shared state.
theorem stepCaller_slots (h : m.stepCaller s₁ c r = some s₂) (hw : s₁.pc c ≠ .write) :
    s₂.fs.try_value_ = s₁.fs.try_value_ ∧ s₂.fs.continuation_ = s₁.fs.continuation_ := by
  cases hp : s₁.pc c <;> simp only [Setup.stepCaller, hp] at h
  case write => contradiction
  case schedule p =>
    cases h
    simp [stepSchedule_fs]
  all_goals
    (repeat' split at h) <;> cases h <;> exact ⟨rfl, rfl⟩

theorem Written.congr (w : Written m s₁ d)
    (h : s₂.fs.try_value_ = s₁.fs.try_value_ ∧ s₂.fs.continuation_ = s₁.fs.continuation_) :
    Written m s₂ d := by
  cases d
  case result       => exact h.left.trans w
  case continuation => exact h.right.trans w

theorem Inv.step_written (i : Inv m s₁) (hc : s₁.pc c = .check → c.hasSettled s₁.fs.state_ = false)
    (h : m.stepCaller s₁ c r = some s₂) (hd₁ : s₂.pc d ≠ .check) (hd₂ : s₂.pc d ≠ .write) :
    Written m s₂ d := by
  have hp := stepCaller_pc_peer h
  by_cases hw : s₁.pc c = .write
  case pos =>
    simp only [Setup.stepCaller, hw, Option.some.injEq] at h
    subst h
    cases c.eq_or_eq_peer d <;> subst d
    case inl => cases c <;> rfl
    case inr =>
      have w := i.written c.peer (hp ▸ hd₁) (hp ▸ hd₂)
      cases c <;> exact w
  case neg =>
    have hs := stepCaller_slots h hw
    cases c.eq_or_eq_peer d <;> subst d
    case inr => exact i.written c.peer (hp ▸ hd₁) (hp ▸ hd₂) |>.congr hs
    case inl =>
      by_cases hp : s₁.pc c = .check
      case neg => exact i.written c hp hw |>.congr hs
      case pos =>
        simp [Setup.stepCaller, hp, hc hp] at h
        simp [← h] at hd₂

-- Before either caller has moved the state, a call gets ready to move it, and then moves it.
theorem Phase.step_start (hs : s₁.fs.state_ = .kStart) (he : ∀ c, Early (s₁.pc c)) (hi : Idle s₁)
    (h : m.stepCaller s₁ c r = some s₂) : Phase m s₂ := by
  have hpeer := stepCaller_pc_peer h
  have hep : Early (s₂.pc c.peer) := hpeer ▸ he c.peer
  have all_early (hc : Early (s₂.pc c)) (d : Caller Unit) : Early (s₂.pc d) := by
    cases c.eq_or_eq_peer d <;> subst d <;> assumption
  have hc := he c
  cases hp : s₁.pc c <;> rw [hp] at hc <;> try contradiction
  all_goals simp [Setup.stepCaller, hp, hs] at h
  case check =>
    refine .start ?_ (all_early ?_) ?_ <;> subst h
    · exact hs
    · simpa using .write
    · exact hi.goto
  case write =>
    refine .start ?_ (all_early ?_) ?_ <;> subst h
    · cases c <;> exact hs
    · simpa using .load
    · exact hi.write.goto
  case load =>
    refine .start ?_ (all_early ?_) ?_ <;> subst h
    · exact hs
    · simpa using .casStart
    · exact hi.goto
  case casStart =>
    refine .half c.peer ?_ ?_ (.inl hep) ?_ <;> subst h
    · simp [Config.goto, Config.setState]
    · simp
    · exact hi.setState.goto

-- Once the peer has returned, the other call loses its first exchange, and moves the state to
-- `kDone` by its second one.
theorem Phase.step_half (hs : s₁.fs.state_ = c.opposite) (hp : s₁.pc c.peer = .returned)
    (hc : Early (s₁.pc c) ∨ Raced c (s₁.pc c)) (hi : Idle s₁) (h : m.stepCaller s₁ c r = some s₂) :
    Phase m s₂ := by
  have hp₂ : s₂.pc c.peer = .returned := stepCaller_pc_peer h |>.trans hp
  cases hpc : s₁.pc c <;> simp [Setup.stepCaller, hpc, hs] at h
  case check =>
    subst h
    exact .half c hs hp₂ (.inl <| by simpa using .write) hi.goto
  case write =>
    subst h
    refine .half c ?_ hp₂ (.inl <| by simpa using .load) hi.write.goto
    cases c <;> exact hs
  case load =>
    subst h
    exact .half c hs hp₂ (.inr <| by simpa using .casDone) hi.goto
  case casStart =>
    subst h
    exact .half c hs hp₂ (.inr <| by simpa using .assertMoved) hi.goto
  case assertMoved state =>
    obtain ⟨⟨⟩⟩ | ⟨⟨⟩⟩ := hpc ▸ hc
    subst h
    exact .half c hs hp₂ (.inr <| by simpa using .casDone) hi.goto
  case casDone state =>
    obtain ⟨⟨⟩⟩ | ⟨⟨⟩⟩ := hpc ▸ hc
    simp at h
    subst h
    refine .done c rfl ?_ hp₂ (.entry ?_ hi.calls hi.handoffs hi.invoked hi.tasks)
    · simp [Config.goto, hi.doneBy]
    · simp
  all_goals
    exfalso
    obtain ⟨⟨⟩⟩ | ⟨⟨⟩⟩ := hpc ▸ hc

theorem afterInvoke_cases (r : Reply ε) :
    Setup.afterInvoke r = .returned ∨ ∃ x, Setup.afterInvoke r = .threw x := by
  rcases r with ⟨_, _, _ | x⟩
  · exact .inl rfl
  · exact .inr ⟨x, rfl⟩

-- Only a call that runs `ScheduleContinuation` takes another step.
theorem Delivery.scheduling (hd : Delivery m c s₁) (h : m.stepCaller s₁ c r = some s₂) :
    ∃ p, s₁.pc c = .schedule p := by
  cases hd
  case entry pc _ _ _ _     => exact ⟨_, pc⟩
  case running pc _ _ _ _ _ => exact ⟨_, pc⟩
  case pending pc _ _ _ _   => simp [Setup.stepCaller, pc] at h
  case delivered pc _ _ _ _ => obtain pc | ⟨_, pc⟩ := pc <;> simp [Setup.stepCaller, pc] at h
  case failed pc _ _ _ _    => obtain pc | ⟨_, pc⟩ := pc <;> simp [Setup.stepCaller, pc] at h

theorem Delivery.not_early (hd : Delivery m c s) : ¬Early (s.pc c) := by
  intro h
  cases hd
  case delivered pc _ _ _ _ => obtain pc | ⟨_, pc⟩ := pc <;> cases pc ▸ h
  case failed pc _ _ _ _    => obtain pc | ⟨_, pc⟩ := pc <;> cases pc ▸ h
  all_goals cases ‹s.pc c = _› ▸ h

-- `ScheduleContinuation` hands the continuation off exactly once, if the executor lets it.
theorem Delivery.step (hd : Delivery m c s₁) (hs : s₁.fs.state_ = .kDone)
    (hw : s₁.fs.continuation_ = some m.func ∧ s₁.fs.try_value_ = m.value ())
    (h : m.stepCaller s₁ c r = some s₂) : Delivery m c s₂ := by
  obtain ⟨p, hp⟩ := hd.scheduling h
  cases hd
  case entry pc calls handoffs invoked tasks =>
    simp [Setup.stepCaller, pc, Setup.stepSchedule, hs] at h
    subst h
    exact .running (pc_goto_self ..) (by simp) (by simp [Config.goto, calls]) handoffs invoked tasks
  case running p pc ne calls handoffs invoked tasks =>
    simp only [Setup.stepCaller, pc, Option.some.injEq] at h
    cases p <;> simp only [Setup.stepSchedule] at h
    case entry => contradiction
    case decide =>
      (repeat' split at h) <;> subst h
      case h_2 x _ => exact .failed (.inr ⟨x, pc_goto_self ..⟩) calls handoffs invoked tasks
      all_goals exact .running (pc_goto_self ..) (by simp) calls handoffs invoked tasks
    case submit =>
      cases hc : s₁.fs.submission <;> simp only [hc] at h
      case none =>
        subst h
        exact .failed (.inl <| pc_goto_self ..) calls handoffs invoked tasks
      case some call =>
        rcases hr : r.accept with x | (_ | _) <;> simp only [hr] at h <;> subst h
        case error    => exact .failed (.inr ⟨x, pc_goto_self ..⟩) calls handoffs invoked tasks
        case ok.false => exact .running (pc_goto_self ..) (by simp) calls handoffs invoked tasks
        case ok.true =>
          have h : ({ s₁.handOff (.accepted call) with tasks := s₁.tasks + 1 }.goto c .returned).handoffs =
              [.accepted call] := by simp [Config.goto, Config.handOff, handoffs]
          exact .pending (pc_goto_self ..) calls h invoked (by simp [Config.goto, tasks])
    case inline =>
      subst h
      refine .delivered (h := .inline) (by simpa using afterInvoke_cases r) calls ?_ ?_ tasks
      · simp [Config.goto, Config.invoke, Config.handOff, handoffs]
      · simp [Config.goto, Config.invoke, Config.handOff, invoked, hw]
    case fallback =>
      subst h
      refine .delivered (h := .refused) (by simpa using afterInvoke_cases r) calls ?_ ?_ tasks
      · simp [Config.goto, Config.invoke, Config.handOff, handoffs]
      · simp [Config.goto, Config.invoke, Config.handOff, invoked, hw]
  case pending pc _ _ _ _   => simp [pc] at hp
  case delivered pc _ _ _ _ => obtain pc | ⟨_, pc⟩ := pc <;> simp [pc] at hp
  case failed pc _ _ _ _    => obtain pc | ⟨_, pc⟩ := pc <;> simp [pc] at hp

theorem Phase.step_done (hs : s₁.fs.state_ = .kDone) (hb : s₁.doneBy = [c])
    (hp : s₁.pc c.peer = .returned) (hd : Delivery m c s₁)
    (hw : s₁.fs.continuation_ = some m.func ∧ s₁.fs.try_value_ = m.value ())
    (h : m.stepCaller s₁ d r = some s₂) : Phase m s₂ := by
  cases c.eq_or_eq_peer d <;> subst d
  case inr => simp [Setup.stepCaller, hp] at h
  case inl =>
    have hd₂ := hd.step hs hw h
    have hp₂ := stepCaller_pc_peer h |>.trans hp
    obtain ⟨p, hpc⟩ := hd.scheduling h
    simp only [Setup.stepCaller, hpc, Option.some.injEq] at h
    subst h
    refine .done c ?_ ?_ hp₂ hd₂
    · rw [stepSchedule_fs, hs]
    · rw [stepSchedule_doneBy, hb]

-- The executor runs an accepted task with the value of the call of `SetResult`.
theorem Phase.runTask (hp : Phase m s₁)
    (hw : ∀ c, s₁.pc c ≠ .check → s₁.pc c ≠ .write → Written m s₁ c)
    (h : Setup.runTask s₁ = some s₂) : Phase m s₂ := by
  simp only [Setup.runTask] at h
  split at h <;> cases h
  case isFalse ht =>
    cases hp
    case start idle      => exact absurd idle.tasks ht
    case half idle       => exact absurd idle.tasks ht
    case done c hs hb hp hd =>
      cases hd
      case pending call pc calls handoffs invoked tasks =>
        have hr (d : Caller Unit) : s₁.pc d = .returned := by
          cases c.eq_or_eq_peer d <;> subst d <;> assumption
        have hv : s₁.fs.try_value_ = m.value () := hw (.result ()) (by simp [hr]) (by simp [hr])
        have hc : s₁.fs.continuation_ = some m.func :=
          hw .continuation (by simp [hr]) (by simp [hr])
        refine .done c hs hb hp (.delivered (.inl pc) calls handoffs ?_ ?_)
        · simp [Config.invoke, invoked, hv, hc]
        · simp [tasks]
      all_goals contradiction

namespace Inv

theorem slots (i : Inv m s) (h₁ : ∀ c, s.pc c ≠ .check) (h₂ : ∀ c, s.pc c ≠ .write) :
    s.fs.continuation_ = some m.func ∧ s.fs.try_value_ = m.value () :=
  ⟨i.written .continuation (h₁ _) (h₂ _), i.written (.result ()) (h₁ _) (h₂ _)⟩

-- A caller that is past writing its slot leaves `check` and `write` behind, and so does its peer
-- if it has returned.
theorem slots_of_peer_returned (i : Inv m s) (hp : s.pc c.peer = .returned)
    (h₁ : s.pc c ≠ .check) (h₂ : s.pc c ≠ .write) :
    s.fs.continuation_ = some m.func ∧ s.fs.try_value_ = m.value () := by
  apply i.slots <;> intro d <;> cases c.eq_or_eq_peer d <;> subst d <;> simp [*]

theorem not_settled (i : Inv m s) (h : Early (s.pc c)) : c.hasSettled s.fs.state_ = false := by
  cases i.phase
  case start hs _ _ => simp [hs]
  case half d hs hp _ _ =>
    cases d.eq_or_eq_peer c <;> subst c
    case inl => simp [hs]
    case inr => cases hp ▸ h
  case done d _ _ hp hd =>
    cases d.eq_or_eq_peer c <;> subst c
    case inl => exact absurd h hd.not_early
    case inr => cases hp ▸ h

theorem step_caller (i : Inv m s₁) (h : m.stepCaller s₁ c r = some s₂) : Inv m s₂ where
  written _ hd₁ hd₂ := i.step_written (fun hc => i.not_settled (hc ▸ .check)) h hd₁ hd₂
  phase := by
    cases i.phase
    case start hs he hi => exact Phase.step_start hs he hi h
    case half d hs hp hd hi =>
      cases d.eq_or_eq_peer c <;> subst c
      case inl => exact Phase.step_half hs hp hd hi h
      case inr => simp [Setup.stepCaller, hp] at h
    case done d hs hb hp hd =>
      cases d.eq_or_eq_peer c <;> subst c
      case inr => simp [Setup.stepCaller, hp] at h
      case inl =>
        obtain ⟨p, hpc⟩ := hd.scheduling h
        have hw := i.slots_of_peer_returned hp (by simp [hpc]) (by simp [hpc])
        exact Phase.step_done hs hb hp hd hw h

theorem step (i : Inv m s₁) (h : m.system.step s₁ a = some s₂) : Inv m s₂ := by
  cases a
  case step => exact i.step_caller h
  case runTask =>
    refine ⟨Phase.runTask i.phase i.written h, ?_⟩
    simp only [Setup.system, Setup.runTask] at h
    split at h <;> cases h
    exact i.written

theorem reachable (h : m.system.Reachable s) : Inv m s :=
  h.invariant .init (·.step)

end Inv

theorem stepCaller_state (h : m.stepCaller s₁ c r = some s₂) :
    (s₂.fs.state_ = s₁.fs.state_ ∧ s₂.doneBy = s₁.doneBy) ∨
    (s₁.pc c = .casStart ∧ s₁.fs.state_ = .kStart ∧ s₂.fs.state_ = c.only) ∨
    (s₁.pc c = .casDone s₁.fs.state_ ∧ s₂.fs.state_ = .kDone ∧ s₂.doneBy = s₁.doneBy ++ [c]) := by
  cases hp : s₁.pc c <;> simp only [Setup.stepCaller, hp] at h
  case casStart =>
    split at h <;> cases h
    case isTrue h => exact .inr <| .inl ⟨rfl, h, rfl⟩
    case isFalse  => exact .inl ⟨rfl, rfl⟩
  case casDone =>
    split at h <;> cases h
    case isTrue h => exact .inr <| .inr ⟨by rw [h], rfl, rfl⟩
    case isFalse  => exact .inl ⟨rfl, rfl⟩
  case schedule p =>
    cases h
    exact .inl ⟨congrArg _ (stepSchedule_fs p), stepSchedule_doneBy p⟩
  all_goals
    (repeat' split at h) <;> cases h <;> first | exact .inl ⟨rfl, rfl⟩ | (cases c <;> exact .inl ⟨rfl, rfl⟩)

theorem Delivery.not_casDone (hd : Delivery m c s) : s.pc c ≠ .casDone state := by
  cases hd
  case delivered pc _ _ _ _ => obtain pc | ⟨_, pc⟩ := pc <;> simp [pc]
  case failed pc _ _ _ _    => obtain pc | ⟨_, pc⟩ := pc <;> simp [pc]
  all_goals simp [*]

-- A call that is about to succeed in moving the state to `kDone` is the last one to arrive.
theorem Phase.casDone (hp : Phase m s) (h : s.pc c = .casDone s.fs.state_) :
    s.fs.state_ = c.opposite ∧ s.pc c.peer = .returned ∧ Idle s := by
  cases hp
  case start he _ => cases h ▸ he c
  case half d hs hp hd hi =>
    cases d.eq_or_eq_peer c <;> subst c
    case inl => exact ⟨hs, hp, hi⟩
    case inr => simp [hp] at h
  case done d _ _ hp hd =>
    cases d.eq_or_eq_peer c <;> subst c
    case inl => exact absurd h hd.not_casDone
    case inr => simp [hp] at h

-- The assertion after the first exchange holds whenever it is evaluated.
theorem Phase.assertion (hp : Phase m s) (h : s.pc c = .assertMoved state) :
    s.fs.state_ = c.opposite := by
  cases hp
  case start he _ => cases h ▸ he c
  case half d hs hp hd hi =>
    cases d.eq_or_eq_peer c <;> subst c
    case inl => exact hs
    case inr => simp [hp] at h
  case done d _ _ hp hd =>
    cases d.eq_or_eq_peer c <;> subst c
    case inr => simp [hp] at h
    case inl =>
      cases hd
      case delivered pc _ _ _ _ => obtain pc | ⟨_, pc⟩ := pc <;> simp [h] at pc
      case failed pc _ _ _ _    => obtain pc | ⟨_, pc⟩ := pc <;> simp [h] at pc
      all_goals simp_all

-- A call that schedules the continuation is the last one to arrive.
theorem Phase.schedule (hp : Phase m s) (h : s.pc c = .schedule p) :
    s.fs.state_ = .kDone ∧ s.pc c.peer = .returned := by
  cases hp
  case start he _        => cases h ▸ he c
  case half d _ hp hd _  =>
    cases d.eq_or_eq_peer c <;> subst c
    case inl => obtain ⟨⟨⟩⟩ | ⟨⟨⟩⟩ := h ▸ hd
    case inr => simp [hp] at h
  case done d hs _ hp hd =>
    cases d.eq_or_eq_peer c <;> subst c
    case inl => exact ⟨hs, hp⟩
    case inr => simp [hp] at h

theorem Phase.no_error (hp : Phase m s) (c : Caller Unit) :
    s.pc c ≠ .aborted ∧ s.pc c ≠ .transferError := by
  cases hp
  case start he _ => constructor <;> intro h <;> cases h ▸ he c
  case half d _ hp hd _ =>
    cases d.eq_or_eq_peer c <;> subst c
    case inl => constructor <;> intro h <;> obtain ⟨⟨⟩⟩ | ⟨⟨⟩⟩ := h ▸ hd
    case inr => simp [hp]
  case done d _ _ hp hd =>
    cases d.eq_or_eq_peer c <;> subst c
    case inr => simp [hp]
    case inl =>
      cases hd
      case delivered pc _ _ _ _ => obtain pc | ⟨_, pc⟩ := pc <;> simp [pc]
      case failed pc _ _ _ _    => obtain pc | ⟨_, pc⟩ := pc <;> simp [pc]
      all_goals simp [*]

theorem move_only (c : Caller Unit) : State.Move .kStart c.only := by
  cases c
  case result       => exact .setResult
  case continuation => exact .setContinuation

theorem move_opposite (c : Caller Unit) : State.Move c.opposite .kDone := by
  cases c
  case result       => exact .addResult
  case continuation => exact .addContinuation

-- The continuation has been handed off exactly once. If the executor has accepted it and has not
-- run it yet, then it is still going to be called with the result.
structure HandedOff (m : Setup ε α κ ξ γ Unit) (s : Config ε α κ ξ γ Unit) : Prop where
  state   : s.fs.state_ = .kDone
  once    : ∃ c, s.doneBy = [c] ∧ s.calls = [c]
  handoff : ∃ h, s.handoffs = [h]
  value   :
    (s.tasks = 0 ∧ s.invoked = [(some m.func, m.value ())]) ∨
    (s.tasks = 1 ∧ s.invoked = [] ∧ (∃ call, s.handoffs = [.accepted call]) ∧
      s.fs.continuation_ = some m.func ∧ s.fs.try_value_ = m.value ())

theorem Inv.handedOff (i : Inv m s) (h : ∀ c, s.pc c = .returned) : HandedOff m s := by
  cases i.phase
  case start he _ => cases h _ ▸ he .continuation
  case half c _ _ hc _ =>
    obtain hc | hc := hc <;> cases h _ ▸ hc
  case done c hs hb _ hd =>
    cases hd
    case pending call _ calls handoffs invoked tasks =>
      have hw := i.slots (by simp [h]) (by simp [h])
      exact ⟨hs, ⟨c, hb, calls⟩, ⟨_, handoffs⟩, .inr ⟨tasks, invoked, ⟨_, handoffs⟩, hw⟩⟩
    case delivered h _ calls handoffs invoked tasks =>
      exact ⟨hs, ⟨c, hb, calls⟩, ⟨_, handoffs⟩, .inl ⟨tasks, invoked⟩⟩
    case failed pc _ _ _ _ => obtain pc | ⟨_, pc⟩ := pc <;> simp [h] at pc
    all_goals simp_all

theorem setResult_setContinuation (h : m.system.Reachable s₁) :
    (∀ {a s₂}, m.system.step s₁ a = some s₂ →
      s₂.fs.state_ = s₁.fs.state_ ∨ State.Move s₁.fs.state_ s₂.fs.state_) ∧
    (∀ {a s₂}, m.system.step s₁ a = some s₂ → s₁.fs.state_ ≠ .kDone → s₂.fs.state_ = .kDone →
      s₁.doneBy = [] ∧ (∃ c r, a = .step c r ∧ s₂.doneBy = [c]) ∧
      s₁.fs.continuation_ = some m.func ∧ s₁.fs.try_value_ = m.value ()) ∧
    (∀ c state, s₁.pc c = .assertMoved state → s₁.fs.state_ = c.opposite) ∧
    (∀ c, s₁.pc c ≠ .aborted ∧ s₁.pc c ≠ .transferError) ∧
    ((∀ c, s₁.pc c = .returned) → HandedOff m s₁) := by
  have i := Inv.reachable h
  refine ⟨fun {a s₂} e => ?move, fun {a s₂} e hs₁ hs₂ => ?done, fun _ _ => i.phase.assertion,
    i.phase.no_error, i.handedOff⟩
  case move =>
    cases a
    case runTask =>
      simp only [Setup.system, Setup.runTask] at e
      split at e <;> cases e
      exact .inl rfl
    case step c r =>
      obtain ⟨h, _⟩ | ⟨_, h₁, h₂⟩ | ⟨h₁, h₂, _⟩ := stepCaller_state e
      · exact .inl h
      · exact .inr (h₁ ▸ h₂ ▸ move_only c)
      · exact .inr (h₂ ▸ (i.phase.casDone h₁).left ▸ move_opposite c)
  case done =>
    cases a
    case runTask =>
      simp only [Setup.system, Setup.runTask] at e
      split at e <;> cases e
      contradiction
    case step c r =>
      obtain ⟨h, _⟩ | ⟨_, _, h⟩ | ⟨h₁, _, h₂⟩ := stepCaller_state e
      · exact absurd (h ▸ hs₂) hs₁
      · cases c <;> simp [h, Caller.only] at hs₂
      · obtain ⟨_, hp, hi⟩ := i.phase.casDone h₁
        have hw := i.slots_of_peer_returned hp (by simp [h₁]) (by simp [h₁])
        exact ⟨hi.doneBy, ⟨c, r, rfl, by simp [h₂, hi.doneBy]⟩, hw⟩

def refusingSetup : Setup Unit Nat String Unit Unit Unit where
  value _         := .value 7
  func            := "f"
  force_scheduled := true
  executor_       := some ()
  context_        := none
  ndebug          := false

-- A run in which `SetContinuation` loses its first exchange, and the executor refuses the task.
def refusingRun : List (Action Unit Unit) :=
  let reply        := ⟨.ok false, .ok false, none⟩
  let result       := .step (.result ()) reply
  let continuation := .step .continuation reply
  List.replicate 3 continuation ++ List.replicate 4 result ++ List.replicate 7 continuation

theorem setResult_setContinuation_refused :
    ∃ s, refusingSetup.system.Reachable s ∧ HandedOff refusingSetup s := by
  obtain ⟨s, hr, hs⟩ := refusingSetup.system.exists_reachable refusingRun
    (p := fun s => s.pc (.result ()) = .returned ∧ s.pc .continuation = .returned) (by decide)
  simp only [Bool.decide_and, Bool.and_eq_true, decide_eq_true_eq] at hs
  refine ⟨s, hr, (setResult_setContinuation hr).2.2.2.2 fun c => ?_⟩
  cases c
  case result       => exact hs.left
  case continuation => exact hs.right

-- Apart from slots that a call has written but not published yet, the calls are atomic: they take
-- effect when they move the state, and then do what `FutureState.setResult` and
-- `FutureState.setContinuation` do.
def atomic (m : Setup ε α κ ξ γ Unit) : System (FutureState ε α κ ξ γ) (Caller Unit) where
  init := m.init.fs
  step fs
    | .result i     => (fs.setResult (m.value i)).toOption.map (·.1)
    | .continuation => (fs.setContinuation m.func).toOption.map (·.1)

def Config.published (s : Config ε α κ ξ γ Unit) : FutureState ε α κ ξ γ :=
  { s.fs with
    try_value_    := bif s.fs.hasResult then s.fs.try_value_ else .nothing
    continuation_ := bif s.fs.hasContinuation then s.fs.continuation_ else none }

theorem stepCaller_fs (h : m.stepCaller s₁ c r = some s₂) :
    s₂.fs.force_scheduled = s₁.fs.force_scheduled ∧ s₂.fs.executor_ = s₁.fs.executor_ ∧
    s₂.fs.context_ = s₁.fs.context_ := by
  cases hp : s₁.pc c <;> simp only [Setup.stepCaller, hp] at h
  case schedule p =>
    cases h
    simp [stepSchedule_fs]
  all_goals
    (repeat' split at h) <;> cases h <;> first | exact ⟨rfl, rfl, rfl⟩ | (cases c <;> exact ⟨rfl, rfl, rfl⟩)

theorem Inv.published_write (i : Inv m s₁) (hp : s₁.pc c = .write)
    (h : m.stepCaller s₁ c r = some s₂) : s₂.published = s₁.published := by
  have hs := i.not_settled (c := c) (by rw [hp]; exact .write)
  simp only [Setup.stepCaller, hp, Option.some.injEq] at h
  subst h
  cases c <;> simp only [Caller.hasSettled] at hs <;>
    simp [Config.published, Config.goto, Setup.write, FutureState.hasResult,
      FutureState.hasContinuation, hs]

theorem simulates_atomic :
    System.Simulation m.system (atomic m) (fun s fs => Inv m s ∧ fs = s.published) where
  init := ⟨.init, by simp [atomic, Config.published, Setup.system, Setup.init, FutureState.new,
    FutureState.hasResult, FutureState.hasContinuation]⟩
  step := by
    rintro s₁ _ a s₂ ⟨i, rfl⟩ e
    have i₂ := i.step e
    cases a
    case runTask =>
      simp only [Setup.system, Setup.runTask] at e
      split at e <;> cases e
      exact .inl ⟨i₂, rfl⟩
    case step c r =>
      obtain ⟨h₁, h₂, h₃⟩ := stepCaller_fs e
      obtain ⟨h, _⟩ | ⟨hp, hs, h⟩ | ⟨hp, h, _⟩ := stepCaller_state e
      · refine .inl ⟨i₂, ?_⟩
        by_cases hw : s₁.pc c = .write
        · exact i.published_write hw e |>.symm
        · obtain ⟨h₄, h₅⟩ := stepCaller_slots e hw
          have hfs : s₂.fs = s₁.fs := by ext1 <;> assumption
          simp [Config.published, hfs]
      · have hw := i.written c (by simp [hp]) (by simp [hp])
        obtain ⟨h₄, h₅⟩ := stepCaller_slots e (by simp [hp])
        refine .inr ⟨c, _, ?_, i₂, rfl⟩
        cases c <;> simp only [Written] at hw <;>
          simp [atomic, Config.published, FutureState.hasResult, FutureState.hasContinuation,
            FutureState.setResult, FutureState.setContinuation, Except.toOption, Caller.only, *]
      · obtain ⟨hs, hpeer, _⟩ := i.phase.casDone hp
        obtain ⟨hw₁, hw₂⟩ := i.slots_of_peer_returned hpeer (by simp [hp]) (by simp [hp])
        obtain ⟨h₄, h₅⟩ := stepCaller_slots e (by simp [hp])
        refine .inr ⟨c, _, ?_, i₂, rfl⟩
        cases c <;>
          simp [atomic, Config.published, FutureState.hasResult, FutureState.hasContinuation,
            FutureState.setResult, FutureState.setContinuation, Except.toOption, Caller.opposite, *]

end Rendezvous
end AsyncSimple
