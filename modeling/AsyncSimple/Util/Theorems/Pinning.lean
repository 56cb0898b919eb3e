import AsyncSimple.Util.Pinning
import AsyncSimple.Util.Theorems.ThreadPool

open Transition

namespace AsyncSimple
namespace ThreadPool

variable {n : Nat} [NeZero n] {φ χ ι : Type} [DecidableEq ι]

-- A running call of `ScheduleById` follows the id that it was given.
def UserPc.Follows (id : Int) : UserPc n φ χ → Prop
  | .schedule _ (.readStop _ id')       => id' = id
  | .schedule _ (.tryPush _ _)          => id = -1
  | .schedule _ (.push can_steal _ id') => id = -1 ∨ (id = id'.val ∧ can_steal = false)
  | _                                   => True

-- The places of a worker in which it neither holds an item nor runs a function.
inductive WorkerPc.Idle : WorkerPc n φ χ → Prop
  | top   : Idle .top
  | steal : Idle (.steal i)
  | pop   : Idle .pop
  | left  : Idle .left

-- The user code that a thread is in.
def Config.userPc (s : Config n φ χ ι) : Thread n ι → Option (UserPc n φ χ)
  | .inl w => match s.worker w with | .user pc => some pc | _ => none
  | .inr i => s.client i

def Record.Follows (h : Record n ι) (s : Config n φ χ ι) : Prop :=
  ∀ t pc, s.userPc t = some pc → pc.Follows (h.calling t)

-- What a step of user code does to the pool and to the record of the pushes, where `id` is the id
-- given to the call that the step is a part of.
inductive UserNoted (s : Config n φ χ ι) (ps : List (Int × Nat)) (id : Int) :
    Config n φ χ ι → List (Int × Nat) → Prop
  | skip : UserNoted s ps id s ps
  | refuse : UserNoted s ps id (s.result e) ps
  | push {item} {v : Fin n} :
    (item.call = s.results.length) → (id = -1 ∨ (id = v.val ∧ item.can_steal = false)) →
    UserNoted s ps id ((s.setQueue v ((s.queues_ v).push item)).result .kErrorNone)
      (ps ++ [(id, s.results.length)])

-- What a step does to the pool and to the record.
inductive Noted (s : Config n φ χ ι) (h : Record n ι) : Config n φ χ ι → Record n ι → Prop
  | goto {pc : WorkerPc n φ χ} :
    ((s.worker w).Idle) → (pc.Idle) → Noted s h (s.setWorker w pc) h
  | take {item : WorkItem φ} {q : ThreadsafeQueue (WorkItem φ)} {v : Fin n} :
    ((s.worker w).Idle) → ((s.queues_ v).queue_ = item :: q.queue_) → (v = w ∨ item.can_steal) →
    Noted s h ((s.setQueue v q).setWorker w (.run item)) h
  | run {item : WorkItem φ} :
    (s.worker w = .run item) →
    Noted s h ({ s with runs := s.runs ++ [(w, item.call)] }.setWorker w (.user (.code x)))
      { h with running := Function.update h.running w item.call }
  | user :
    (s.worker w = .user pc₁) → (UserNoted s h.pushes (h.calling (.inl w)) s' ps) →
    (∀ t, t ≠ .inl w → c t = h.calling t) → (pc₂.Follows (c (.inl w))) →
    Noted s h (s'.setWorker w (.user pc₂)) { h with calling := c, pushes := ps }
  | ret :
    (s.worker w = .user pc₁) → (UserNoted s h.pushes (h.calling (.inl w)) s' ps) →
    (∀ t, t ≠ .inl w → c t = h.calling t) →
    Noted s h (s'.setWorker w .top)
      { h with calling := c, pushes := ps, returned := h.returned ++ [(w, h.running w)] }
  | client :
    (UserNoted s h.pushes (h.calling (.inr i)) s' ps) →
    (∀ t, t ≠ .inr i → c t = h.calling t) → (∀ upc, pc = some upc → upc.Follows (c (.inr i))) →
    Noted s h (s'.setClient i pc) { h with calling := c, pushes := ps }
  | destructor : (DestructorEffect s s') → (s'.client = s.client) → Noted s h s' h

variable {m : Setup n φ χ ι} {s s₁ s₂ : Config n φ χ ι} {h h₁ h₂ : Record n ι} {t : Thread n ι}

theorem stepUser_noted (hf : pc₁.Follows (h.calling t)) (hs : m.stepUser s₁ r pc₁ = some (s₂, pc₂)) :
    UserNoted s₁ h.pushes (h.calling t) s₂ (h.noteUser m s₁ t pc₁ s₂).pushes := by
  cases pc₁
  case code c =>
    simp only [Setup.stepUser] at hs
    split at hs <;> cases hs
    case h_4 =>
      have : (s₁.result .kErrorPoolItemIsNull).results ≠ s₁.results ++ [.kErrorNone] := by
        simp [Config.result]
      simpa [Record.noteUser, this] using .refuse
    all_goals simpa [Record.noteUser] using .skip
  case schedule k pc =>
    cases hs
    cases pc
    case readStop fn id =>
      dsimp only
      repeat' split
      case isTrue =>
        have : (s₁.result .kErrorPoolHasStop).results ≠ s₁.results ++ [.kErrorNone] := by
          simp [Config.result]
        simpa [Record.noteUser, this] using .refuse
      all_goals simpa [Record.noteUser] using .skip
    case tryPush fn i =>
      simp only [ThreadsafeQueue.tryPush]
      by_cases hi : i < n * 2 <;> cases r.lock <;> simp only [hi, if_true, if_false]
      case pos.true =>
        simpa [Record.noteUser, Config.result, Config.setQueue] using .push rfl (.inl hf)
      all_goals simpa [Record.noteUser] using .skip
    case push =>
      simpa [Setup.stepSchedule, Record.noteUser, Config.result, Config.setQueue] using .push rfl hf
  case aborted => contradiction

omit [NeZero n] in
theorem noteUser_calling_ne (s₁ s₂ : Config n φ χ ι) {t' : Thread n ι} (ht : t' ≠ t) :
    (h.noteUser m s₁ t pc s₂).calling t' = h.calling t' := by
  simp only [Record.noteUser]
  cases m.givenId pc
  case none => rfl
  case some => exact Function.update_of_ne ht ..

theorem stepUser_follows (hf : pc₁.Follows (h.calling t))
    (hs : m.stepUser s₁ r pc₁ = some (s₂, some pc₂)) :
    pc₂.Follows ((h.noteUser m s₁ t pc₁ s₂).calling t) := by
  cases pc₁
  case code c =>
    simp only [Setup.stepUser] at hs
    split at hs <;> cases hs
    case h_3 hi => simp [UserPc.Follows, Record.noteUser, Setup.givenId, hi]
    all_goals trivial
  case schedule k pc =>
    have hc : (h.noteUser m s₁ t (.schedule k pc) s₂).calling t = h.calling t := rfl
    rw [hc]
    simp only [Setup.stepUser, Option.some.injEq, Prod.mk.injEq] at hs
    obtain ⟨-, rfl⟩ := hs
    cases pc
    case readStop fn id =>
      simp only [UserPc.Follows] at hf
      subst hf
      simp only [Setup.stepSchedule]
      repeat' split
      all_goals simp_all [UserPc.Follows]
    case tryPush fn i =>
      simp only [Setup.stepSchedule, ThreadsafeQueue.tryPush]
      by_cases hi : i < n * 2 <;> cases r.lock <;> simp only [hi, if_true, if_false]
      all_goals simp_all [UserPc.Follows]
    case push => trivial
  case aborted => contradiction

omit [NeZero n] [DecidableEq ι] in
theorem stepDestructor_client (hs : Setup.stepDestructor s₁ = some s₂) : s₂.client = s₁.client := by
  simp only [Setup.stepDestructor] at hs
  repeat' split at hs
  all_goals cases hs <;> rfl

theorem step_noted (hf : h₁.Follows s₁) (hs : m.system.step s₁ a = some s₂) :
    Noted s₁ h₁ s₂ (h₁.note m s₁ a s₂) := by
  cases a
  case worker w r =>
    cases hp : s₁.worker w <;> simp only [Setup.system, Setup.stepWorker, hp] at hs
    case top =>
      cases hs
      simp only [Record.note, hp]
      refine .goto (hp ▸ .top) ?_
      split
      · exact .steal
      · exact .pop
    case steal i =>
      simp only [Record.note, hp]
      split at hs
      case isTrue =>
        split at hs <;> cases hs
        case h_1 hq =>
          obtain ⟨hq, hc⟩ := ThreadsafeQueue.tryPopIf_some hq
          exact .take (hp ▸ .steal) hq (.inr (by simpa using hc))
        case h_2 => exact .goto (hp ▸ .steal) .steal
      case isFalse =>
        cases hs
        exact .goto (hp ▸ .steal) .pop
    case pop =>
      simp only [Record.note, hp]
      split at hs <;> cases hs
      case h_1 hq => exact .take (hp ▸ .pop) (ThreadsafeQueue.pop_some hq) (.inl rfl)
      case h_2    => exact .goto (hp ▸ .pop) .left
    case run =>
      cases hs
      simpa only [Record.note, hp] using .run hp
    case user pc =>
      have hf := hf (.inl w) pc (by simp [Config.userPc, hp])
      split at hs <;> cases hs
      case h_1 s pc' hu =>
        have hn : h₁.note m s₁ (.worker w r) (s.setWorker w (.user pc')) =
            h₁.noteUser m s₁ (.inl w) pc s := by
          simp only [Record.note, hp, Config.setWorker, Function.update_self]
          rfl
        rw [hn]
        exact .user hp (stepUser_noted hf hu) (fun _ => noteUser_calling_ne s₁ s) (stepUser_follows hf hu)
      case h_2 s hu =>
        have hn : h₁.note m s₁ (.worker w r) (s.setWorker w .top) =
            { h₁.noteUser m s₁ (.inl w) pc s with returned := h₁.returned ++ [(w, h₁.running w)] } := by
          simp only [Record.note, hp, Config.setWorker, Function.update_self]
          rfl
        rw [hn]
        exact .ret hp (stepUser_noted hf hu) fun _ => noteUser_calling_ne s₁ s
    case left => contradiction
  case client i r =>
    simp only [Setup.system, Setup.stepClient] at hs
    split at hs
    case h_1 pc hc =>
      obtain ⟨⟨s, pc'⟩, hu, rfl⟩ := Option.map_eq_some_iff.mp hs
      have hf := hf (.inr i) pc hc
      have hn : h₁.note m s₁ (.client i r) (s.setClient i pc') = h₁.noteUser m s₁ (.inr i) pc s := by
        simp only [Record.note, hc]
        rfl
      rw [hn]
      refine .client (stepUser_noted hf hu) (fun _ => noteUser_calling_ne s₁ s) ?_
      rintro upc rfl
      exact stepUser_follows hf hu
    case h_2 => contradiction
  case destructor => exact .destructor (stepDestructor_effect hs) (stepDestructor_client hs)

omit [NeZero n] [DecidableEq ι] in
theorem UserNoted.userPc {x : Int} (e : UserNoted s₁ ps x s₂ ps') (t : Thread n ι) :
    s₂.userPc t = s₁.userPc t := by
  cases e <;> rfl

omit [NeZero n] [DecidableEq ι] in
theorem UserNoted.worker {x : Int} (e : UserNoted s₁ ps x s₂ ps') : s₂.worker = s₁.worker := by
  cases e <;> rfl

omit [NeZero n] [DecidableEq ι] in
theorem UserNoted.runs {x : Int} (e : UserNoted s₁ ps x s₂ ps') : s₂.runs = s₁.runs := by
  cases e <;> rfl

namespace Record.Follows

omit [NeZero n] in
-- Only one thread moves in a step.
theorem update (hf : h₁.Follows s₁)
    (hu : ∀ t', t' ≠ t → s₂.userPc t' = s₁.userPc t' ∧ h₂.calling t' = h₁.calling t')
    (ht : ∀ pc, s₂.userPc t = some pc → pc.Follows (h₂.calling t)) : h₂.Follows s₂ := by
  intro t' pc hp
  by_cases h : t' = t
  · subst h
    exact ht pc hp
  · rw [(hu t' h).left] at hp
    rw [(hu t' h).right]
    exact hf t' pc hp

omit [NeZero n] in
theorem setWorker (hf : h₁.Follows s₁) (hs : ∀ t, s₂.userPc t = s₁.userPc t)
    (hc : ∀ t, t ≠ .inl w → h₂.calling t = h₁.calling t)
    (hp : ∀ upc, pc = .user upc → upc.Follows (h₂.calling (.inl w))) :
    h₂.Follows (s₂.setWorker w pc) := by
  refine hf.update (t := .inl w) (fun t ht => ⟨?_, hc t ht⟩) fun upc hu => ?_
  · rw [← hs]
    cases t
    case inl w' =>
      have : w' ≠ w := fun h => ht (h ▸ rfl)
      simp [Config.userPc, Config.setWorker, Function.update_of_ne this]
    case inr => rfl
  · simp only [Config.userPc, Config.setWorker, Function.update_self] at hu
    split at hu
    case h_1 => exact hp _ (Option.some.inj hu ▸ rfl)
    case h_2 => contradiction

omit [NeZero n] in
theorem step (hf : h₁.Follows s₁) (e : Noted s₁ h₁ s₂ h₂) : h₂.Follows s₂ := by
  cases e
  case goto hp => exact hf.setWorker (fun _ => rfl) (fun _ _ => rfl) fun _ h => by simp [h] at hp; cases hp
  case take => exact hf.setWorker (fun _ => rfl) (fun _ _ => rfl) nofun
  case run =>
    refine hf.setWorker (fun _ => rfl) (fun _ _ => rfl) fun _ h => ?_
    cases h
    trivial
  case user e hc hp =>
    refine hf.setWorker e.userPc hc fun _ h => ?_
    cases h
    exact hp
  case ret e hc => exact hf.setWorker e.userPc hc nofun
  case client i _ _ _ _ e hc hp =>
    refine hf.update (t := .inr i) (fun t ht => ⟨?_, hc t ht⟩) fun upc hu => hp _ ?_
    · rw [← e.userPc]
      cases t
      case inl => rfl
      case inr j =>
        have : j ≠ i := fun h => ht (h ▸ rfl)
        simp [Config.userPc, Config.setClient, Function.update_of_ne this]
    · simpa [Config.userPc, Config.setClient] using hu
  case destructor e hc =>
    have hu : ∀ t, s₂.userPc t = s₁.userPc t
      | .inl _ => by simp only [Config.userPc, e.worker]
      | .inr _ => by simp only [Config.userPc, hc]
    exact fun t pc hp => hf t pc (hu t ▸ hp)

end Record.Follows

-- The calls whose items a worker has taken, or will take unless they are stolen, in this order.
def WorkerPc.calls : WorkerPc n φ χ → List Nat
  | .run item => [item.call]
  | _         => []

omit [NeZero n] in
@[simp]
theorem WorkerPc.calls_run {item : WorkItem φ} :
    (WorkerPc.run item : WorkerPc n φ χ).calls = [item.call] := rfl

omit [NeZero n] in
@[simp]
theorem WorkerPc.calls_user : (WorkerPc.user pc : WorkerPc n φ χ).calls = [] := rfl

omit [NeZero n] in
theorem WorkerPc.Idle.calls {pc : WorkerPc n φ χ} (hp : pc.Idle) : pc.calls = [] := by
  cases hp <;> rfl

namespace Config

def calls (s : Config n φ χ ι) (i : Fin n) : List Nat :=
  (s.runs.filter (·.1 = i)).map (·.2) ++ (s.worker i).calls ++ (s.queues_ i).queue_.map (·.call)

variable {v w i : Fin n}

omit [NeZero n] [DecidableEq ι] in
theorem calls_setWorker (hp : pc.calls = (s.worker w).calls) : (s.setWorker w pc).calls i = s.calls i := by
  by_cases h : i = w
  · subst h
    simp [calls, setWorker, hp]
  · simp [calls, setWorker, Function.update_of_ne h]

omit [NeZero n] [DecidableEq ι] in
theorem calls_run {item : WorkItem φ} (hw : s.worker w = .run item) (hp : pc.calls = []) :
    ({ s with runs := s.runs ++ [(w, item.call)] }.setWorker w pc).calls i = s.calls i := by
  by_cases h : i = w
  · subst h
    simp [calls, setWorker, hw, hp]
  · simp [calls, setWorker, Function.update_of_ne h, Ne.symm h]

omit [NeZero n] [DecidableEq ι] in
theorem calls_push {item : WorkItem φ} :
    ((s.setQueue v ((s.queues_ v).push item)).result e).calls i =
      s.calls i ++ if i = v then [item.call] else [] := by
  by_cases h : i = v
  · subst h
    simp [calls, setQueue, result, ThreadsafeQueue.push]
  · simp [calls, setQueue, result, h]

section Take

variable {item : WorkItem φ} {q : ThreadsafeQueue (WorkItem φ)}

omit [NeZero n] [DecidableEq ι] in
theorem calls_take (hw : (s.worker w).Idle) (hq : (s.queues_ w).queue_ = item :: q.queue_) :
    ((s.setQueue w q).setWorker w (.run item)).calls i = s.calls i := by
  by_cases h : i = w
  · subst h
    simp [calls, setQueue, setWorker, hq, hw.calls]
  · simp [calls, setQueue, setWorker, Function.update_of_ne h]

omit [NeZero n] [DecidableEq ι] in
-- Among the calls that satisfy `p`, nothing changes when an item of another call is stolen.
theorem filter_calls_steal {p : Nat → Bool} (hw : (s.worker w).Idle)
    (hq : (s.queues_ v).queue_ = item :: q.queue_) (hv : v ≠ w) (hp : p item.call = false) :
    (((s.setQueue v q).setWorker w (.run item)).calls i).filter p = (s.calls i).filter p := by
  by_cases hi : i = w
  · subst hi
    simp [calls, setQueue, setWorker, Function.update_of_ne hv.symm, hw.calls, hp]
  · by_cases hi : i = v
    · subst hi
      simp [calls, setQueue, setWorker, Function.update_of_ne hv, hq, hp]
    · simp [calls, setQueue, setWorker, Function.update_of_ne, *]

omit [NeZero n] [DecidableEq ι] in
theorem mem_calls_steal (hw : (s.worker w).Idle) (hq : (s.queues_ v).queue_ = item :: q.queue_)
    (hv : v ≠ w) (hc : c ∈ ((s.setQueue v q).setWorker w (.run item)).calls i) :
    c ∈ s.calls i ∨ c = item.call := by
  refine or_iff_not_imp_right.mpr fun hne => ?_
  have hf := filter_calls_steal (i := i) (p := (· ≠ item.call)) hw hq hv (by simp)
  exact (List.mem_filter.mp <| hf ▸ List.mem_filter.mpr ⟨hc, by simpa using hne⟩).left

omit [NeZero n] [DecidableEq ι] in
theorem queue_take (hq : (s.queues_ v).queue_ = item :: q.queue_) (i : Fin n) :
    (((s.setQueue v q).setWorker w pc).queues_ i).queue_ ⊆ (s.queues_ i).queue_ := by
  by_cases h : i = v
  · subst h
    simp [setQueue, setWorker, hq]
  · simp [setQueue, setWorker, Function.update_of_ne h]

omit [NeZero n] [DecidableEq ι] in
theorem mem_queue_push
    (h : item' ∈ (((s.setQueue v ((s.queues_ v).push item)).result e).queues_ i).queue_) :
    (item' ∈ (s.queues_ i).queue_) ∨ (item' = item) := by
  by_cases hi : i = v
  · subst hi
    simpa [setQueue, result, ThreadsafeQueue.push] using h
  · exact .inl (by simpa [setQueue, result, Function.update_of_ne hi] using h)

omit [NeZero n] [DecidableEq ι] in
theorem mem_calls_queue (h : item ∈ (s.queues_ i).queue_) : item.call ∈ s.calls i :=
  List.mem_append_right _ (List.mem_map_of_mem h)

end Take

end Config

-- Where the items that have been pushed with an explicit id are.
structure Placed (s : Config n φ χ ι) (ps : List (Int × Nat)) : Prop where
  pushed : ∀ {x c}, (x, c) ∈ ps → c < s.results.length
  called : ∀ {i c}, c ∈ s.calls i → c < s.results.length
  home   : ∀ {i c x}, c ∈ s.calls i → (x, c) ∈ ps → x ≠ -1 → x = i.val
  kept   : ∀ {i item x}, item ∈ (s.queues_ i).queue_ → (x, item.call) ∈ ps → x ≠ -1 → item.can_steal = false
  flow   : ∀ i : Fin n, (s.calls i).filter (fun c => ((i : Int), c) ∈ ps) = (ps.filter (·.1 = (i : Int))).map (·.2)

namespace Placed

variable {ps : List (Int × Nat)}

omit [NeZero n] [DecidableEq ι] in
theorem init : Placed m.init [] where
  pushed := nofun
  called := by simp [Config.calls, Setup.init, WorkerPc.calls, ThreadsafeQueue.new]
  home   := nofun
  kept   := nofun
  flow   := by simp [Config.calls, Setup.init, WorkerPc.calls, ThreadsafeQueue.new]

omit [NeZero n] [DecidableEq ι] in
-- Moving an item from a queue to a worker, and from there to the record of runs.
theorem move (p : Placed s₁ ps) (hr : s₁.results.length ≤ s₂.results.length)
    (hq : ∀ i, (s₂.queues_ i).queue_ ⊆ (s₁.queues_ i).queue_)
    (hc : ∀ i, s₂.calls i = s₁.calls i) : Placed s₂ ps where
  pushed h := Nat.lt_of_lt_of_le (p.pushed h) hr
  called h := Nat.lt_of_lt_of_le (p.called (hc _ ▸ h)) hr
  home h   := p.home (hc _ ▸ h)
  kept h   := p.kept (hq _ h)
  flow i   := hc i ▸ p.flow i

omit [NeZero n] [DecidableEq ι] in
theorem steal {item : WorkItem φ} {q : ThreadsafeQueue (WorkItem φ)} {v w : Fin n}
    (p : Placed s ps) (hw : (s.worker w).Idle) (hq : (s.queues_ v).queue_ = item :: q.queue_)
    (hv : v ≠ w) (hs : item.can_steal) : Placed ((s.setQueue v q).setWorker w (.run item)) ps := by
  have hi : item ∈ (s.queues_ v).queue_ := by simp [hq]
  -- A stolen item has not been scheduled with an explicit id.
  have hx : ∀ {x}, (x, item.call) ∈ ps → x = -1 := by
    intro x h
    by_contra hne
    simp [p.kept hi h hne] at hs
  have hc := Config.mem_calls_queue hi
  refine ⟨p.pushed, fun h => ?_, fun h hp hne => ?_, fun h => ?_, fun i => ?_⟩
  · obtain h | rfl := Config.mem_calls_steal hw hq hv h
    · exact p.called h
    · exact p.called hc
  · obtain h | rfl := Config.mem_calls_steal hw hq hv h
    · exact p.home h hp hne
    · exact absurd (hx hp) hne
  · exact p.kept (Config.queue_take hq _ h)
  · rw [Config.filter_calls_steal hw hq hv]
    · exact p.flow i
    · simp only [decide_eq_false_iff_not]
      intro h
      have := hx h
      omega

omit [NeZero n] [DecidableEq ι] in
theorem push {item : WorkItem φ} {v : Fin n} {x : Int} (p : Placed s ps)
    (hc : item.call = s.results.length) (hx : x = -1 ∨ (x = v.val ∧ item.can_steal = false)) :
    Placed ((s.setQueue v ((s.queues_ v).push item)).result .kErrorNone)
      (ps ++ [(x, s.results.length)]) := by
  have hl : ∀ {y c}, (y, c) ∈ ps ++ [(x, s.results.length)] →
      ((y, c) ∈ ps ∧ c < s.results.length) ∨ (y = x ∧ c = s.results.length) := by
    simp only [List.mem_append, List.mem_singleton, Prod.mk.injEq]
    rintro y c (h | h)
    · exact .inl ⟨h, p.pushed h⟩
    · exact .inr h
  have hm : ∀ {i c}, c ∈ s.calls i ++ (if i = v then [item.call] else []) →
      (c ∈ s.calls i ∧ c < s.results.length) ∨ (i = v ∧ c = s.results.length) := by
    intro i c h
    obtain h | h := List.mem_append.mp h
    · exact .inl ⟨h, p.called h⟩
    · split at h
      case isTrue hi => exact .inr ⟨hi, by simpa [hc] using h⟩
      case isFalse   => contradiction
  refine ⟨fun h => ?_, fun h => ?_, fun h hp hne => ?_, fun h => ?_, fun i => ?_⟩
  · have := hl h
    simp [Config.result, Config.setQueue]
    omega
  · rw [Config.calls_push] at h
    have := hm h
    simp [Config.result, Config.setQueue]
    omega
  · rw [Config.calls_push] at h
    obtain ⟨h, hlt⟩ | ⟨rfl, rfl⟩ := hm h
    · obtain ⟨hp, -⟩ | ⟨-, rfl⟩ := hl hp
      · exact p.home h hp hne
      · omega
    · obtain ⟨-, hlt⟩ | ⟨rfl, -⟩ := hl hp
      · omega
      · exact (hx.resolve_left hne).left
  · obtain h | rfl := Config.mem_queue_push h
    · intro hp
      obtain ⟨hp, -⟩ | ⟨-, he⟩ := hl hp
      · exact p.kept h hp
      · have := p.called (Config.mem_calls_queue h)
        omega
    · intro hp hne
      obtain ⟨-, hlt⟩ | ⟨rfl, -⟩ := hl hp
      · omega
      · exact (hx.resolve_left hne).right
  · have hf : (s.calls i).filter (fun c => ((i : Int), c) ∈ ps ++ [(x, s.results.length)]) =
        (s.calls i).filter (fun c => ((i : Int), c) ∈ ps) := by
      refine List.filter_congr fun c h => ?_
      have := p.called h
      simp [show c ≠ s.results.length by omega]
    have hn : ((i : Int), s.results.length) ∉ ps := fun h => absurd (p.pushed h) (Nat.lt_irrefl _)
    rw [Config.calls_push, List.filter_append, hf, p.flow, List.filter_append, List.map_append]
    by_cases hxi : x = (i : Int)
    · have hv : i = v := by
        obtain h | h := hx <;> omega
      simp [hxi, hv, hc]
    · have hne : ¬ ((i : Int) = x) := fun h => hxi h.symm
      split <;> simp [hxi, hne, hn, hc]

omit [NeZero n] [DecidableEq ι] in
theorem user {x : Int} (p : Placed s₁ ps₁) (e : UserNoted s₁ ps₁ x s₂ ps₂) : Placed s₂ ps₂ := by
  cases e
  case skip       => exact p
  case refuse     => exact p.move (by simp [Config.result]) (fun _ => List.Subset.refl _) fun _ => rfl
  case push hc hx => exact p.push hc hx

omit [NeZero n] [DecidableEq ι] in
theorem setWorker {w : Fin n} (p : Placed s ps) (hp : pc.calls = (s.worker w).calls) :
    Placed (s.setWorker w pc) ps :=
  p.move (Nat.le_refl _) (fun _ => List.Subset.refl _) fun _ => Config.calls_setWorker hp

omit [NeZero n] in
theorem step (p : Placed s₁ h₁.pushes) (e : Noted s₁ h₁ s₂ h₂) : Placed s₂ h₂.pushes := by
  cases e
  case goto h₁ h₂ => exact p.setWorker (h₁.calls ▸ h₂.calls)
  case take w item q v hw hq hv =>
    by_cases h : v = w
    · subst h
      exact p.move (Nat.le_refl _) (Config.queue_take hq) fun _ => Config.calls_take hw hq
    · exact p.steal hw hq h (hv.resolve_left h)
  case run hw =>
    exact p.move (Nat.le_refl _) (fun _ => List.Subset.refl _) fun _ => Config.calls_run hw rfl
  case user hw e _ _ => exact (p.user e).setWorker (by simp [e.worker, hw])
  case ret hw e _    => exact (p.user e).setWorker (by simp [e.worker, hw, WorkerPc.calls])
  case client e _ _  => exact (p.user e).move (Nat.le_refl _) (fun _ => List.Subset.refl _) fun _ => rfl
  case destructor e _ =>
    refine p.move (Nat.le_of_eq (by rw [e.results])) (fun i => ?_) fun i => ?_
    · rw [e.queue]
      exact List.Subset.refl _
    · simp only [Config.calls, e.runs, e.worker, e.queue]

end Placed

def WorkerPc.runsFunction : WorkerPc n φ χ → Bool
  | .user _ => true
  | _       => false

omit [NeZero n] in
theorem WorkerPc.Idle.runsFunction {pc : WorkerPc n φ χ} (hp : pc.Idle) : pc.runsFunction = false := by
  cases hp <;> rfl

-- A worker calls a function only when the functions that it has called before have returned.
def Record.Serial (h : Record n ι) (s : Config n φ χ ι) : Prop :=
  ∀ w, s.runs.filter (·.1 = w) =
    h.returned.filter (·.1 = w) ++ if (s.worker w).runsFunction then [(w, h.running w)] else []

namespace Record.Serial

omit [NeZero n] [DecidableEq ι] in
theorem setWorker {w : Fin n} (hs : h₁.Serial s₁) (hw : s₂.worker = s₁.worker)
    (hr : s₂.runs = s₁.runs) (hp : pc.runsFunction = (s₁.worker w).runsFunction)
    (hh : h₂.running = h₁.running) (ht : h₂.returned = h₁.returned) :
    h₂.Serial (s₂.setWorker w pc) := by
  intro w'
  have := hs w'
  by_cases h : w' = w
  · subst h
    simpa [Config.setWorker, hr, hh, ht, hp] using this
  · simpa [Config.setWorker, Function.update_of_ne h, hw, hr, hh, ht] using this

omit [NeZero n] in
theorem step (hs : h₁.Serial s₁) (e : Noted s₁ h₁ s₂ h₂) : h₂.Serial s₂ := by
  cases e
  case goto hp₁ hp₂ => exact hs.setWorker rfl rfl (by rw [hp₁.runsFunction, hp₂.runsFunction]) rfl rfl
  case take hp _ _  => exact hs.setWorker rfl rfl (by rw [hp.runsFunction]; rfl) rfl rfl
  case run w _ item hw =>
    intro w'
    have := hs w'
    by_cases h : w' = w
    · subst h
      simp_all [Config.setWorker, WorkerPc.runsFunction]
    · simpa [Config.setWorker, Function.update_of_ne h, Ne.symm h] using this
  case user hw e _ _ => exact hs.setWorker e.worker e.runs (by rw [hw]; rfl) rfl rfl
  case ret w _ _ _ _ hw e _ =>
    intro w'
    have := hs w'
    by_cases h : w' = w
    · subst h
      simp_all [Config.setWorker, WorkerPc.runsFunction, e.runs]
    · simpa [Config.setWorker, Function.update_of_ne h, Ne.symm h, e.runs, e.worker] using this
  case client e _ _ =>
    intro w
    simpa [Config.setClient, e.runs, e.worker] using hs w
  case destructor e _ =>
    intro w
    simpa [e.runs, e.worker] using hs w

end Record.Serial

-- The invariant of the recorded runs.
structure PinnedInv (s : Config n φ χ ι) (h : Record n ι) : Prop where
  follows : h.Follows s
  placed  : Placed s h.pushes
  serial  : h.Serial s

namespace PinnedInv

theorem reachable {r : Config n φ χ ι × Record n ι}
    (hr : (m.system.record .init (Record.note m)).Reachable r) : PinnedInv r.1 r.2 := by
  refine hr.invariant (I := fun r => PinnedInv r.1 r.2) ⟨fun t pc hp => ?_, .init, fun w => rfl⟩
    fun i hs => ?_
  · cases t <;> cases hp
    trivial
  · obtain ⟨hs, hn⟩ := System.record_step.mp hs
    have e := step_noted i.follows hs
    rw [← hn] at e
    exact ⟨i.follows.step e, i.placed.step e, i.serial.step e⟩

omit [NeZero n] [DecidableEq ι] in
theorem home {x : Int} {w : Fin n} (i : PinnedInv s h) (hp : (x, c) ∈ h.pushes) (hx : x ≠ -1)
    (hr : (w, c) ∈ s.runs) : x = w.val := by
  refine i.placed.home (List.mem_append_left _ <| List.mem_append_left _ ?_) hp hx
  exact List.mem_map.mpr ⟨_, List.mem_filter.mpr ⟨hr, by simp⟩, rfl⟩

omit [NeZero n] [DecidableEq ι] in
-- The functions that have been called with the explicit id `j` are among those of worker `j`.
theorem runsOf (i : PinnedInv s h) (j : Fin n) :
    h.runsOf s j = (s.runs.filter (·.1 = j)).filter fun r => ((j : Int), r.2) ∈ h.pushes := by
  rw [List.filter_filter]
  refine List.filter_congr fun r hr => ?_
  by_cases hp : ((j : Int), r.2) ∈ h.pushes
  · have := i.home hp (by omega) hr
    simp [hp, Fin.ext_iff]
    omega
  · simp [hp]

omit [NeZero n] [DecidableEq ι] in
theorem order (i : PinnedInv s h) (j : Fin n) : (h.runsOf s j).map (·.2) <+: h.pushesOf j := by
  rw [i.runsOf, Record.pushesOf, ← i.placed.flow, Config.calls, List.append_assoc,
    List.filter_append, List.filter_map]
  exact List.prefix_append ..

omit [NeZero n] [DecidableEq ι] in
theorem returned (i : PinnedInv s h) {j : Fin n} (hs : h.runsOf s j = rs ++ [r]) : rs ⊆ h.returned := by
  intro x hx
  rw [i.runsOf, i.serial, List.filter_append] at hs
  suffices x ∈ (h.returned.filter (·.1 = j)).filter fun r => ((j : Int), r.2) ∈ h.pushes from
    List.mem_of_mem_filter (List.mem_of_mem_filter this)
  -- At most the last one of the functions that have been called is still running.
  split at hs <;> simp only [List.filter_cons, List.filter_nil, List.append_nil] at hs
  case isFalse => exact hs ▸ List.mem_append_left _ hx
  case isTrue  =>
    split at hs
    case isTrue  => exact (List.append_inj' hs rfl).left ▸ hx
    case isFalse => exact (List.append_nil _ ▸ hs) ▸ List.mem_append_left _ hx

end PinnedInv

-- In every run of the pool, the items that are scheduled with an explicit id are run by the worker
-- with that id, one after the other, and in the order of the pushes.
theorem scheduleById_pinned {r : Config n φ χ ι × Record n ι}
    (hr : (m.system.record .init (Record.note m)).Reachable r) : Pinned r.1 r.2 := by
  have i := PinnedInv.reachable hr
  exact ⟨i.home, i.order, i.returned⟩

-- A client schedules a function with id 0, one for any worker, and another one with id 0.
def mixedSetup : Setup 2 Unit Nat Unit where
  enable_work_steal_ := true
  entry _ := 3
  instr
    | 0 => .scheduleById (some ()) 0 fun _ => 1
    | 1 => .scheduleById (some ()) (-1) fun _ => 2
    | 2 => .scheduleById (some ()) 0 fun _ => 3
    | _ => .ret
  client _ := 0

-- Worker 0 calls the first function, worker 1 steals the second one, and worker 0 goes on.
def mixedRun (zero one : Fin 2) : List (Action 2 Unit) :=
  List.replicate 9 (.client () ⟨true, 0⟩) ++ List.replicate 8 (.worker zero ⟨true, 0⟩) ++
  List.replicate 5 (.worker one ⟨true, 0⟩) ++ List.replicate 9 (.worker zero ⟨true, 0⟩)

theorem scheduleById_pinned_mixed :
    ∃ r : Config 2 Unit Nat Unit × Record 2 Unit,
      r.1.runs = [(0, 0), (1, 1), (0, 2)] ∧ r.2.pushes = [(0, 0), (-1, 1), (0, 2)] ∧
      Pinned r.1 r.2 := by
  obtain ⟨r, hr, hs⟩ := (mixedSetup.system.record .init (Record.note mixedSetup)).exists_reachable
    (mixedRun 0 1) (p := fun r => r.1.runs = [(0, 0), (1, 1), (0, 2)] ∧
      r.2.pushes = [(0, 0), (-1, 1), (0, 2)]) (by decide)
  simp only [Bool.decide_and, Bool.and_eq_true, decide_eq_true_eq] at hs
  exact ⟨r, hs.left, hs.right, scheduleById_pinned hr⟩

end ThreadPool
end AsyncSimple
