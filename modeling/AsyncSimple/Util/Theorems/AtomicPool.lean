import AsyncSimple.Lib.Count
import AsyncSimple.Util.AtomicPool
import AsyncSimple.Util.Pinning

open Transition

namespace AsyncSimple
namespace AtomicPool

open ThreadPool (ErrorType)

variable {n : Nat} {φ χ ι : Type}

-- The semaphore that a thread waits for.

def UserPc.waits : UserPc χ → Option Nat
  | .acquire sem _ => some sem
  | _              => none

def WorkerPc.waits : WorkerPc φ χ → Option Nat
  | .user _ pc => pc.waits
  | _          => none

def Config.waits (s : Config n φ χ ι) : ThreadPool.Thread n ι → Option Nat
  | .inl w => (s.worker w).waits
  | .inr i => (s.client i).bind UserPc.waits

-- The semaphore that a worker has a reference to, and the same for a function that it has called.

def WorkerPc.sem : WorkerPc φ χ → Option Nat
  | .run item    => item.sem
  | .user sem _  => sem
  | .release sem => some sem
  | _            => none

def WorkerPc.calledSem : WorkerPc φ χ → Option Nat
  | .user sem _  => sem
  | .release sem => some sem
  | _            => none

-- A function that is followed by the release of semaphore `j` is still to be run, or is running.
def Config.Refers (s : Config n φ χ ι) (j : Nat) : Prop :=
  (∃ v, ∃ item ∈ s.pool.queues_ v, item.sem = some j) ∨ (∃ w, (s.worker w).sem = some j)

def Pool.timesRun (p : Pool n φ) (j : Nat) : Nat :=
  p.runs.countP (·.snd = j)

-- The references are counted.

def tick (j : Nat) (o : Option Nat) : Nat :=
  if o = some j then 1 else 0

def queued (j : Nat) (q : List (WorkItem φ)) : Nat :=
  q.countP fun item => item.sem = some j

def Pool.queued (p : Pool n φ) (j : Nat) : Nat :=
  ∑ v, AtomicPool.queued j (p.queues_ v)

def refs (f : WorkerPc φ χ → Option Nat) (worker : Fin n → WorkerPc φ χ) (j : Nat) : Nat :=
  ∑ w, tick j (f (worker w))

@[simp]
theorem tick_none : tick j none = 0 := rfl

theorem tick_pos : 0 < tick j o ↔ o = some j := by
  simp only [tick]
  split <;> simp [*]

section Counts

variable {s : Config n φ χ ι} {p : Pool n φ} {v w : Fin n} {j : Nat}

theorem queued_cons (item : WorkItem φ) (q : List (WorkItem φ)) :
    queued j (item :: q) = queued j q + tick j item.sem := by
  simp [queued, tick, List.countP_cons]

theorem queued_snoc (item : WorkItem φ) (q : List (WorkItem φ)) :
    queued j (q ++ [item]) = queued j q + tick j item.sem := by
  simp [queued, tick, List.countP_append, List.countP_cons]

theorem queued_setQueue (p : Pool n φ) (v : Fin n) (q : List (WorkItem φ)) :
    (p.setQueue v q).queued j + queued j (p.queues_ v) = p.queued j + queued j q :=
  Count.sum_update (queued j) p.queues_ v q

theorem queued_push {b : Bool} {fn : φ} {o : Option Nat} : (p.push v b fn o).queued j = p.queued j + tick j o := by
  have := queued_setQueue (j := j) p v (p.queues_ v ++ [⟨b, fn, p.results.length, o⟩])
  simp only [queued_snoc] at this
  have hp : (p.push v b fn o).queued j = (p.setQueue v (p.queues_ v ++ [⟨b, fn, p.results.length, o⟩])).queued j := rfl
  omega

theorem refs_update (f : WorkerPc φ χ → Option Nat) (worker : Fin n → WorkerPc φ χ) (w : Fin n) (pc : WorkerPc φ χ)
    (j : Nat) :
    refs f (Function.update worker w pc) j + tick j (f (worker w)) = refs f worker j + tick j (f pc) :=
  Count.sum_update (fun pc => tick j (f pc)) worker w pc

theorem refers_iff : s.Refers j ↔ 0 < s.pool.queued j + refs WorkerPc.sem s.worker j := by
  have hq : (∃ v, ∃ item ∈ s.pool.queues_ v, item.sem = some j) ↔ 0 < s.pool.queued j := by
    simp [Pool.queued, Finset.sum_pos_iff, queued, List.countP_pos_iff]
  have hw : (∃ w, (s.worker w).sem = some j) ↔ 0 < refs WorkerPc.sem s.worker j := by
    simp [refs, Finset.sum_pos_iff, tick_pos]
  rw [Config.Refers, hq, hw]
  omega

end Counts

-- What a step of user code does to the pool.
inductive UserEffect (p : Pool n φ) : UserPc χ → Pool n φ → Option (UserPc χ) → Prop
  | skip    : (pc.waits = none) → (pc'.bind UserPc.waits = none) → UserEffect p pc p pc'
  | refuse  : (pc.waits = none) → (pc'.bind UserPc.waits = none) → UserEffect p pc (p.result e) pc'
  | push    : (pc.waits = none) → (pc'.bind UserPc.waits = none) → UserEffect p pc (p.push v b fn none) pc'
  | sync    : (pc.waits = none) → UserEffect p pc
    (p.setSem p.results.length (some 0) |>.push v b fn (some p.results.length)) (some (.acquire p.results.length k))
  | acquire : (p.sems j = some (c + 1)) → UserEffect p (.acquire j k) (p.setSem j none) (some (.code x))

-- The place of a worker after its user code has taken a step.
def nextPc (sem : Option Nat) : Option (UserPc χ) → WorkerPc φ χ
  | some pc => .user sem pc
  | none    => sem.elim .idle .release

section Next

variable {sem : Option Nat} {pc : Option (UserPc χ)}

@[simp]
theorem sem_nextPc : (nextPc sem pc : WorkerPc φ χ).sem = sem := by
  cases pc <;> cases sem <;> rfl

@[simp]
theorem calledSem_nextPc : (nextPc sem pc : WorkerPc φ χ).calledSem = sem := by
  cases pc <;> cases sem <;> rfl

@[simp]
theorem waits_nextPc : (nextPc sem pc : WorkerPc φ χ).waits = pc.bind UserPc.waits := by
  cases pc <;> cases sem <;> rfl

end Next

-- What a step does.
inductive Effect [DecidableEq ι] (s : Config n φ χ ι) : Config n φ χ ι → Prop
  | take    : (s.worker w = .idle) → (s.pool.queues_ v = item :: items) →
    Effect s ({ s with pool := s.pool.setQueue v items }.setWorker w (.run item))
  | leave   : (s.worker w = .idle) → s.pool.stop_ → Effect s (s.setWorker w .left)
  | run     : (s.worker w = .run item) →
    Effect s ({ s with pool := s.pool.run w item.call }.setWorker w (.user item.sem (.code c)))
  | user    : (s.worker w = .user sem pc) → (UserEffect s.pool pc p pc') →
    Effect s ({ s with pool := p }.setWorker w (nextPc sem pc'))
  | release : (s.worker w = .release sem) →
    Effect s ({ s with pool := s.pool.release sem }.setWorker w .idle)
  | client  : (s.client i = some pc) → (UserEffect s.pool pc p pc') → Effect s ({ s with pool := p }.setClient i pc')
  | stop    : Effect s { s with pool.stop_ := true }
  | finish  : Effect s { s with finished := true }

variable {m : Setup n φ χ ι} {s s₁ s₂ : Config n φ χ ι} {p p₁ p₂ : Pool n φ}

theorem stepUser_effect (h : m.stepUser p₁ r pc₁ = some (p₂, pc₂)) : UserEffect p₁ pc₁ p₂ pc₂ := by
  cases pc₁
  case code c =>
    simp only [Setup.stepUser] at h
    split at h
    case h_1 => cases h; exact .skip rfl rfl
    case h_2 => cases h; exact .skip rfl rfl
    case h_3 => cases h; exact .refuse rfl rfl
    case h_4 =>
      split at h
      case isTrue  => cases h; exact .refuse rfl rfl
      case isFalse =>
        repeat' split at h
        all_goals cases h
        · exact .push rfl rfl
        · exact .push rfl rfl
        · exact .skip rfl rfl
    case h_5 =>
      split at h <;> cases h
      case isTrue  => exact .refuse rfl rfl
      case isFalse => exact .sync rfl
  case acquire j k =>
    simp only [Setup.stepUser] at h
    split at h <;> cases h
    case h_1 hj => exact .acquire hj
  case aborted => contradiction

variable [DecidableEq ι]

theorem step_effect {a : Action n ι} (h : m.system.step s₁ a = some s₂) : Effect s₁ s₂ := by
  cases a <;> simp only [Setup.system, Setup.step] at h
  case take w v =>
    split at h <;> try contradiction
    case h_1 hw hq =>
    split at h <;> cases h
    exact .take hw hq
  case leave w =>
    split at h <;> try contradiction
    case h_1 hw hq =>
    split at h <;> cases h
    exact .leave hw ‹_›
  case worker w r =>
    cases hp : s₁.worker w <;> simp only [Setup.stepWorker, hp] at h <;> try contradiction
    case run     => cases h; exact .run hp
    case release => cases h; exact .release hp
    case user sem pc =>
      split at h <;> cases h
      case h_1 hu => exact .user hp (stepUser_effect hu)
      case h_2 hu => exact .user hp (stepUser_effect hu)
  case client i r =>
    split at h <;> try contradiction
    case h_1 hc =>
    obtain ⟨⟨p, pc⟩, hu, rfl⟩ := Option.map_eq_some_iff.mp h
    exact .client hc (stepUser_effect hu)
  case stop =>
    split at h <;> cases h
    exact .stop
  case finish =>
    split at h <;> cases h
    exact .finish

-- The calls are numbered in the order in which they take effect, and an item that is not followed by a release has
-- no semaphore with its number.

structure Pool.Numbers (p : Pool n φ) (item : WorkItem φ) : Prop where
  lt   : item.call < p.results.length
  call : item.sem = some j → j = item.call
  sem  : (p.sems item.call).isSome → item.sem = some item.call

structure Pool.Numbered (p : Pool n φ) : Prop where
  sems  : (p.sems j).isSome → j < p.results.length
  queue : item ∈ p.queues_ v → p.Numbers item
  runs  : r ∈ p.runs → r.2 < p.results.length

structure Numbered (s : Config n φ χ ι) : Prop where
  pool : s.pool.Numbered
  run  : s.worker w = .run item → s.pool.Numbers item

theorem mem_push {item : WorkItem φ} {v v' : Fin n} (h : item ∈ (p.push v b fn o).queues_ v') :
    item ∈ p.queues_ v' ∨ item = ⟨b, fn, p.results.length, o⟩ := by
  by_cases hv : v' = v
  · subst hv
    simpa [Pool.push, Pool.setQueue, Pool.result] using h
  · exact .inl (by simpa [Pool.push, Pool.setQueue, Pool.result, Function.update_of_ne hv] using h)

theorem Pool.Numbered.sems_length (h : p.Numbered) : p.sems p.results.length = none :=
  Option.not_isSome_iff_eq_none.mp fun hs => Nat.lt_irrefl _ (h.sems hs)

namespace UserEffect

variable {pc : UserPc χ} {pc' : Option (UserPc χ)} {item : WorkItem φ}

theorem runs (e : UserEffect p₁ pc p₂ pc') : p₂.runs = p₁.runs := by
  cases e <;> rfl

theorem stop_ (e : UserEffect p₁ pc p₂ pc') : p₂.stop_ = p₁.stop_ := by
  cases e <;> rfl

theorem length_le (e : UserEffect p₁ pc p₂ pc') : p₁.results.length ≤ p₂.results.length := by
  cases e <;> simp [Pool.result, Pool.push, Pool.setQueue, Pool.setSem]

theorem sems_of_lt (e : UserEffect p₁ pc p₂ pc') (hj : j < p₁.results.length) (h : (p₂.sems j).isSome) :
    p₂.sems j = p₁.sems j := by
  cases e
  case sync => exact Function.update_of_ne (by omega) ..
  case acquire j' _ _ _ _ =>
    by_cases hne : j = j'
    · subst hne
      simp [Pool.setSem] at h
    · exact Function.update_of_ne hne ..
  all_goals rfl

theorem numbers (e : UserEffect p₁ pc p₂ pc') (h : p₁.Numbers item) : p₂.Numbers item where
  lt     := h.lt.trans_le e.length_le
  call   := h.call
  sem hs := h.sem (e.sems_of_lt h.lt hs ▸ hs)

theorem numbered (e : UserEffect p₁ pc p₂ pc') (h : p₁.Numbered) : p₂.Numbered where
  sems {j} hj := by
    by_cases hlt : j < p₁.results.length
    · exact hlt.trans_le e.length_le
    · have hn : ¬ (p₁.sems j).isSome := fun hs => hlt (h.sems hs)
      cases e
      case sync =>
        by_cases hne : j = p₁.results.length
        · simp [hne, Pool.push, Pool.setSem, Pool.setQueue, Pool.result]
        · exact absurd hj (by simpa [Pool.push, Pool.setSem, Pool.setQueue, Pool.result, Function.update_of_ne hne] using hn)
      case acquire j' _ _ _ _ =>
        by_cases hne : j = j'
        · simp [hne, Pool.setSem] at hj
        · exact absurd hj (by simpa [Pool.setSem, Function.update_of_ne hne] using hn)
      all_goals exact absurd hj hn
  queue hi := by
    have hold {item v} (hi : item ∈ p₁.queues_ v) : p₂.Numbers item := e.numbers (h.queue hi)
    cases e
    case push =>
      obtain hi | rfl := mem_push hi
      · exact hold hi
      · refine ⟨by simp [Pool.push, Pool.setQueue, Pool.result], nofun, fun hs => ?_⟩
        simp [Pool.push, Pool.setQueue, Pool.result, h.sems_length] at hs
    case sync =>
      obtain hi | rfl := mem_push hi
      · exact hold hi
      · refine ⟨by simp [Pool.push, Pool.setQueue, Pool.setSem, Pool.result], fun hs => ?_, fun _ => rfl⟩
        exact (Option.some.inj hs).symm
    all_goals exact hold hi
  runs hr := by
    rw [e.runs] at hr
    exact (h.runs hr).trans_le e.length_le

end UserEffect

theorem Pool.Numbers.congr {item : WorkItem φ} (h : p₁.Numbers item) (hr : p₂.results = p₁.results)
    (hs : ∀ j, (p₂.sems j).isSome = (p₁.sems j).isSome) : p₂.Numbers item where
  lt      := hr ▸ h.lt
  call    := h.call
  sem hs' := h.sem (hs _ ▸ hs')

omit [DecidableEq ι] in
theorem isSome_release (p : Pool n φ) (sem j : Nat) :
    ((p.release sem).sems j).isSome = (p.sems j).isSome := by
  by_cases hj : j = sem
  · subst hj
    simp [Pool.release, Pool.setSem]
  · simp [Pool.release, Pool.setSem, Function.update_of_ne hj]

namespace Numbered

omit [DecidableEq ι] in
theorem setWorker {w : Fin n} (h : Numbered s) (hp : p.Numbered) (hn : ∀ item, s.pool.Numbers item → p.Numbers item)
    (hr : ∀ item, pc = .run item → p.Numbers item) : Numbered ({ s with pool := p }.setWorker w pc) where
  pool := hp
  run {w' item} hw := by
    by_cases hne : w' = w
    · subst hne
      exact hr item (by simpa [Config.setWorker] using hw)
    · exact hn item (h.run (by simpa [Config.setWorker, Function.update_of_ne hne] using hw))

theorem step (h : Numbered s₁) (e : Effect s₁ s₂) : Numbered s₂ := by
  cases e
  case take w v item items hw hq =>
    have hn (item : WorkItem φ) (hi : s₁.pool.Numbers item) : (s₁.pool.setQueue v items).Numbers item :=
      hi.congr rfl fun _ => rfl
    refine h.setWorker ⟨h.pool.sems, fun {v' item'} hi => ?_, h.pool.runs⟩ hn fun item' hi => ?_
    · refine hn _ ?_
      by_cases hv : v' = v
      · subst hv
        exact h.pool.queue (hq ▸ List.mem_cons_of_mem item (by simpa [Pool.setQueue] using hi))
      · exact h.pool.queue (by simpa [Pool.setQueue, Function.update_of_ne hv] using hi)
    · cases hi
      exact hn _ (h.pool.queue (hq ▸ List.mem_cons_self))
  case leave => exact h.setWorker h.pool (fun _ h => h) nofun
  case run w item c hw =>
    refine h.setWorker ⟨h.pool.sems, fun hi => (h.pool.queue hi).congr rfl fun _ => rfl, fun hr => ?_⟩
      (fun _ hi => hi.congr rfl fun _ => rfl) nofun
    obtain hr | hr := List.mem_append.mp hr
    · exact h.pool.runs hr
    · cases List.mem_singleton.mp hr
      exact (h.run hw).lt
  case user w sem pc p pc' hw e =>
    refine h.setWorker (e.numbered h.pool) (fun _ => e.numbers) fun item hi => ?_
    cases pc' <;> cases sem <;> contradiction
  case release w sem hw =>
    have hs := isSome_release s₁.pool sem
    exact h.setWorker ⟨fun hj => h.pool.sems (hs _ ▸ hj), fun hi => (h.pool.queue hi).congr rfl hs, h.pool.runs⟩
      (fun _ hi => hi.congr rfl hs) nofun
  case client e => exact ⟨e.numbered h.pool, fun hw => e.numbers (h.run hw)⟩
  case stop =>
    exact ⟨⟨h.pool.sems, fun hi => (h.pool.queue hi).congr rfl fun _ => rfl, h.pool.runs⟩,
      fun hw => (h.run hw).congr rfl fun _ => rfl⟩
  case finish => exact ⟨h.pool, h.run⟩

end Numbered

-- Each semaphore is on the stack of the one thread that waits for it.
structure Waiting {τ : Type} (sems : Nat → Option Nat) (waits : τ → Option Nat) : Prop where
  sem    : ∀ j, (sems j).isSome ↔ ∃ t, waits t = some j
  unique : waits t = some j → waits t' = some j → t = t'

namespace Waiting

variable {τ : Type} {sems sems' : Nat → Option Nat} {waits : τ → Option Nat} {t : τ}

theorem congr (h : Waiting sems waits) (hs : ∀ j, (sems' j).isSome = (sems j).isSome) : Waiting sems' waits :=
  ⟨fun j => hs j ▸ h.sem j, h.unique⟩

variable [DecidableEq τ]

theorem idle (h : Waiting sems waits) (ht : waits t = none) : Waiting sems (Function.update waits t none) := by
  rwa [← ht, Function.update_eq_self]

theorem sync (h : Waiting sems waits) (ht : waits t = none) (hj : sems j = none) :
    Waiting (Function.update sems j (some 0)) (Function.update waits t (some j)) := by
  have hne (t' : τ) : waits t' ≠ some j := fun hw => by simpa [hj] using (h.sem j).mpr ⟨t', hw⟩
  refine ⟨fun j' => ?_, fun {t₁ j' t₂} h₁ h₂ => ?_⟩
  · by_cases hj' : j' = j
    · subst hj'
      simpa using ⟨t, Function.update_self ..⟩
    · rw [Function.update_of_ne hj', h.sem]
      refine exists_congr fun t' => ?_
      by_cases ht' : t' = t
      · subst ht'
        simp [ht, Ne.symm hj']
      · rw [Function.update_of_ne ht']
  · by_cases ht₁ : t₁ = t <;> by_cases ht₂ : t₂ = t
    · rw [ht₁, ht₂]
    · rw [ht₁, Function.update_self] at h₁
      rw [Function.update_of_ne ht₂] at h₂
      exact absurd (h₂.trans h₁.symm) (hne t₂)
    · rw [Function.update_of_ne ht₁] at h₁
      rw [ht₂, Function.update_self] at h₂
      exact absurd (h₁.trans h₂.symm) (hne t₁)
    · rw [Function.update_of_ne ht₁] at h₁
      rw [Function.update_of_ne ht₂] at h₂
      exact h.unique h₁ h₂

theorem acquire (h : Waiting sems waits) (ht : waits t = some j) :
    Waiting (Function.update sems j none) (Function.update waits t none) := by
  refine ⟨fun j' => ?_, fun {t₁ j' t₂} h₁ h₂ => ?_⟩
  · by_cases hj' : j' = j
    · subst hj'
      simp only [Function.update_self, Option.isSome_none, Bool.false_eq_true, false_iff, not_exists]
      intro t' hw
      by_cases ht' : t' = t
      · simp [ht'] at hw
      · exact ht' (h.unique (by rwa [Function.update_of_ne ht'] at hw) ht)
    · rw [Function.update_of_ne hj', h.sem]
      refine exists_congr fun t' => ?_
      by_cases ht' : t' = t
      · subst ht'
        simp [ht, Ne.symm hj']
      · rw [Function.update_of_ne ht']
  · have hw {t' : τ} (hw : Function.update waits t none t' = some j') : waits t' = some j' := by
      by_cases ht' : t' = t
      · simp [ht'] at hw
      · rwa [Function.update_of_ne ht'] at hw
    exact h.unique (hw h₁) (hw h₂)

theorem user {pc : UserPc χ} (e : UserEffect p₁ pc p₂ pc') (h : Waiting p₁.sems waits) (hn : p₁.Numbered)
    (ht : waits t = pc.waits) :
    Waiting p₂.sems (Function.update waits t (pc'.bind UserPc.waits)) := by
  cases e
  case sync hp    => exact h.sync (ht.trans hp) hn.sems_length
  case acquire    => exact h.acquire ht
  case skip hp hp'   => exact hp' ▸ h.idle (ht.trans hp)
  case refuse hp hp' => exact hp' ▸ h.idle (ht.trans hp)
  case push hp hp'   => exact hp' ▸ h.idle (ht.trans hp)

end Waiting

theorem waits_setWorker (s : Config n φ χ ι) (w : Fin n) (pc : WorkerPc φ χ) :
    (s.setWorker w pc).waits = Function.update s.waits (.inl w) pc.waits := by
  funext t
  cases t
  case inl w' =>
    by_cases hw : w' = w
    · subst hw
      simp [Config.waits, Config.setWorker]
    · have hne : (Sum.inl w' : ThreadPool.Thread n ι) ≠ .inl w := fun h => hw (Sum.inl.inj h)
      simp [Config.waits, Config.setWorker, Function.update_of_ne hw, Function.update_of_ne hne]
  case inr => rfl

theorem waits_setClient (s : Config n φ χ ι) (i : ι) (pc : Option (UserPc χ)) :
    (s.setClient i pc).waits = Function.update s.waits (.inr i) (pc.bind UserPc.waits) := by
  funext t
  cases t
  case inl => rfl
  case inr i' =>
    by_cases hi : i' = i
    · subst hi
      simp [Config.waits, Config.setClient]
    · have hne : (Sum.inr i' : ThreadPool.Thread n ι) ≠ .inr i := fun h => hi (Sum.inr.inj h)
      simp [Config.waits, Config.setClient, Function.update_of_ne hi, Function.update_of_ne hne]

theorem Waiting.step (h : Waiting s₁.pool.sems s₁.waits) (hn : s₁.pool.Numbered) (e : Effect s₁ s₂) :
    Waiting s₂.pool.sems s₂.waits := by
  have hset {w : Fin n} {pc : WorkerPc φ χ} {p : Pool n φ} (hp : ∀ j, (p.sems j).isSome = (s₁.pool.sems j).isSome)
      (hw : (s₁.worker w).waits = none) (hpc : pc.waits = none) :
      Waiting p.sems ({ s₁ with pool := p }.setWorker w pc).waits := by
    rw [waits_setWorker, hpc]
    exact (h.congr hp).idle hw
  cases e
  case take hw _  => exact hset (fun _ => rfl) (by rw [hw]; rfl) rfl
  case leave hw _ => exact hset (fun _ => rfl) (by rw [hw]; rfl) rfl
  case run hw     => exact hset (fun _ => rfl) (by rw [hw]; rfl) rfl
  case release hw => exact hset (isSome_release _ _) (by rw [hw]; rfl) rfl
  case user w sem pc p pc' hw e =>
    rw [waits_setWorker, waits_nextPc]
    exact .user e h hn (by simp [Config.waits, hw, WorkerPc.waits])
  case client hc e =>
    rw [waits_setClient]
    exact .user e h hn (by simp [Config.waits, hc])
  case stop   => exact h
  case finish => exact h

-- A semaphore has one reference, until it is released, and its function has been run if a worker has called it, or if
-- it has been released.
structure Pool.Counted (p : Pool n φ) (refs called j : Nat) : Prop where
  refs : p.queued j + refs + (p.sems j).getD 0 = if (p.sems j).isSome then 1 else 0
  runs : (p.sems j).isSome → p.timesRun j = called + (p.sems j).getD 0

def Counted (s : Config n φ χ ι) : Prop :=
  ∀ j, s.pool.Counted (refs WorkerPc.sem s.worker j) (refs WorkerPc.calledSem s.worker j) j

omit [DecidableEq ι] in
theorem refs_called_le (worker : Fin n → WorkerPc φ χ) (j : Nat) :
    refs WorkerPc.calledSem worker j ≤ refs WorkerPc.sem worker j :=
  Finset.sum_le_sum fun w _ => by cases worker w <;> simp [WorkerPc.calledSem, WorkerPc.sem]

omit [DecidableEq ι] in
theorem Pool.Counted.congr {refs refs' called called' : Nat} (h : p₁.Counted refs called j)
    (hq : p₂.queued j + refs' = p₁.queued j + refs) (hs : p₂.sems j = p₁.sems j)
    (hr : (p₁.sems j).isSome → p₂.timesRun j + called = p₁.timesRun j + called') : p₂.Counted refs' called' j where
  refs := by rw [hs, hq, h.refs]
  runs hj := by
    rw [hs] at hj ⊢
    have := h.runs hj
    have := hr hj
    omega

omit [DecidableEq ι] in
theorem UserEffect.counted {pc : UserPc χ} {refs called : Nat} (e : UserEffect p₁ pc p₂ pc')
    (h : p₁.Counted refs called j)
    (hle : called ≤ refs) (hn : p₁.Numbered) : p₂.Counted refs called j := by
  cases e
  case skip   => exact h
  case refuse => exact h.congr rfl rfl fun _ => rfl
  case push   => exact h.congr (by rw [queued_push, tick_none]; rfl) rfl fun _ => rfl
  case sync v b fn _ _ =>
    have hq : ((p₁.setSem p₁.results.length (some 0)).push v b fn (some p₁.results.length)).queued j =
      p₁.queued j + tick j (some p₁.results.length) := queued_push
    by_cases hj : j = p₁.results.length
    · have hr := h.refs
      have ht : ((p₁.setSem p₁.results.length (some 0)).push v b fn (some p₁.results.length)).timesRun j = 0 := by
        refine List.countP_eq_zero.mpr fun r hr => ?_
        have := hn.runs hr
        simp only [decide_eq_true_eq]
        omega
      have hs : ((p₁.setSem p₁.results.length (some 0)).push v b fn (some p₁.results.length)).sems j = some 0 := by
        rw [hj]
        exact Function.update_self ..
      rw [hj, hn.sems_length, ← hj] at hr
      simp only [Option.getD_none, Option.isSome_none, Bool.false_eq_true, if_false] at hr
      rw [show tick j (some p₁.results.length) = 1 by simp [tick, hj]] at hq
      refine ⟨?_, fun _ => ?_⟩
      · simp only [hs, Option.getD_some, Option.isSome_some, if_true]
        omega
      · rw [hs, ht, Option.getD_some]
        omega
    · refine h.congr ?_ (Function.update_of_ne hj ..) fun _ => rfl
      rw [hq, tick, if_neg fun h => hj (Option.some.inj h).symm, Nat.add_zero]
  case acquire j' c k x hs =>
    by_cases hj : j = j'
    · subst hj
      have hr := h.refs
      simp only [hs, Option.getD_some, Option.isSome_some, if_true] at hr
      have hs' : (p₁.setSem j none).sems j = none := Function.update_self ..
      have hq : (p₁.setSem j none).queued j = p₁.queued j := rfl
      refine ⟨?_, fun h => by simp [hs'] at h⟩
      simp only [hs', Option.getD_none, Option.isSome_none, Bool.false_eq_true, if_false]
      omega
    · exact h.congr rfl (Function.update_of_ne hj ..) fun _ => rfl

namespace Counted

omit [DecidableEq ι] in
-- Worker `w` moves, and all references stay.
theorem setWorker {worker : Fin n → WorkerPc φ χ} {w : Fin n} {pc : WorkerPc φ χ}
    (h : p.Counted (refs WorkerPc.sem worker j) (refs WorkerPc.calledSem worker j) j)
    (hs : pc.sem = (worker w).sem) (hc : pc.calledSem = (worker w).calledSem) :
    p.Counted (refs WorkerPc.sem (Function.update worker w pc) j)
      (refs WorkerPc.calledSem (Function.update worker w pc) j) j := by
  have h₁ := refs_update WorkerPc.sem worker w pc j
  have h₂ := refs_update WorkerPc.calledSem worker w pc j
  rw [hs] at h₁
  rw [hc] at h₂
  exact h.congr (by omega) rfl fun _ => by omega

theorem step (h : Counted s₁) (hn : Numbered s₁) (e : Effect s₁ s₂) : Counted s₂ := by
  intro j
  have hj := h j
  cases e
  case take w v item items hw hq =>
    have h₁ := queued_setQueue (j := j) s₁.pool v items
    have h₂ := refs_update WorkerPc.sem s₁.worker w (.run item) j
    have h₃ := refs_update WorkerPc.calledSem s₁.worker w (.run item) j
    rw [hq, queued_cons] at h₁
    simp only [hw, WorkerPc.sem, WorkerPc.calledSem, tick_none] at h₂ h₃
    refine hj.congr ?_ rfl fun _ => ?_
    · simp only [Config.setWorker]
      omega
    · have ht : (s₁.pool.setQueue v items).timesRun j = s₁.pool.timesRun j := rfl
      simp only [Config.setWorker]
      omega
  case leave hw _ => exact setWorker hj (by rw [hw]; rfl) (by rw [hw]; rfl)
  case run w item c hw =>
    have h₁ := refs_update WorkerPc.sem s₁.worker w (.user item.sem (.code c)) j
    have h₂ := refs_update WorkerPc.calledSem s₁.worker w (.user item.sem (.code c)) j
    simp only [hw, WorkerPc.sem, WorkerPc.calledSem, tick_none] at h₁ h₂
    refine hj.congr ?_ rfl fun hs => ?_
    · have hq : (s₁.pool.run w item.call).queued j = s₁.pool.queued j := rfl
      simp only [Config.setWorker]
      omega
    · -- The item of a semaphore is the only one with its number.
      have ht : (s₁.pool.run w item.call).timesRun j = s₁.pool.timesRun j + tick j item.sem := by
        have hi := hn.run hw
        have hcall : item.call = j ↔ item.sem = some j := by
          refine ⟨fun hc => ?_, fun hc => (hi.call hc).symm⟩
          subst hc
          exact hi.sem hs
        simp [Pool.run, Pool.timesRun, tick, List.countP_append, List.countP_cons, hcall]
      simp only [Config.setWorker]
      omega
  case user hw e =>
    have he := e.counted hj (refs_called_le _ j) hn.pool
    exact setWorker he (by rw [hw, sem_nextPc]; rfl) (by rw [hw, calledSem_nextPc]; rfl)
  case release w sem hw =>
    have h₁ := refs_update WorkerPc.sem s₁.worker w .idle j
    have h₂ := refs_update WorkerPc.calledSem s₁.worker w .idle j
    simp only [hw, WorkerPc.sem, WorkerPc.calledSem, tick_none] at h₁ h₂
    by_cases hne : j = sem
    · subst hne
      have hr := hj.refs
      have hr' := hj.runs
      simp only [tick, if_true] at h₁ h₂
      cases hs : s₁.pool.sems j <;> simp only [hs, Option.getD_none, Option.getD_some, Option.isSome_none, Option.isSome_some,
        Bool.false_eq_true, if_true, if_false, forall_const] at hr hr'
      case none => omega
      case some c =>
        have hs' : (s₁.pool.release j).sems j = some (c + 1) := by
          simp [Pool.release, Pool.setSem, hs]
        have hq : (s₁.pool.release j).queued j = s₁.pool.queued j := rfl
        have ht : (s₁.pool.release j).timesRun j = s₁.pool.timesRun j := rfl
        refine ⟨?_, fun _ => ?_⟩
        · simp only [Config.setWorker, hs', Option.getD_some, Option.isSome_some, if_true]
          omega
        · simp only [Config.setWorker, hs', Option.getD_some]
          omega
    · have hq : (s₁.pool.release sem).queued j = s₁.pool.queued j := rfl
      have ht : (s₁.pool.release sem).timesRun j = s₁.pool.timesRun j := rfl
      rw [show tick j (some sem) = 0 by simp [tick, Ne.symm hne]] at h₁ h₂
      refine hj.congr ?_ (Function.update_of_ne hne ..) fun _ => ?_
      all_goals
        simp only [Config.setWorker]
        omega
  case client e => exact e.counted hj (refs_called_le _ j) hn.pool
  case stop     => exact hj.congr rfl rfl fun _ => rfl
  case finish   => exact hj

end Counted

structure Inv (s : Config n φ χ ι) : Prop where
  numbered : Numbered s
  waiting  : Waiting s.pool.sems s.waits
  counted  : Counted s
  order    : ∀ {w j j'}, (s.worker w).sem = some j → (s.worker w).waits = some j' → j < j'
  left     : ∀ w, (s.worker w).hasLeft → s.pool.stop_

-- What `SyncSchedule` promises about its `j`th call of `Schedule`: as long as its function is still to be run, or is
-- running, the caller is blocked, so that its semaphore is there. And if the caller is blocked, then either this is the
-- case, or it can return, and the function has been called once.
structure Synced (s : Config n φ χ ι) (j : Nat) : Prop where
  blocked : s.Refers j → s.pool.sems j = some 0 ∧ ∃ t, s.waits t = some j
  waiting : s.waits t = some j → s.Refers j ∨ (s.pool.sems j = some 1 ∧ ¬s.Refers j ∧ s.pool.timesRun j = 1)

namespace Inv

omit [DecidableEq ι] in
theorem sem_of_refers (i : Inv s) (hr : s.Refers j) : s.pool.sems j = some 0 := by
  have hpos := refers_iff.mp hr
  have hc := (i.counted j).refs
  cases hs : s.pool.sems j <;> simp only [hs, Option.getD_none, Option.getD_some, Option.isSome_none, Option.isSome_some,
    Bool.false_eq_true, if_true, if_false] at hc
  case none => omega
  case some => exact congrArg some (by omega)

omit [DecidableEq ι] in
theorem synced (i : Inv s) (j : Nat) : Synced s j where
  blocked hr := by
    have hs := i.sem_of_refers hr
    exact ⟨hs, (i.waiting.sem j).mp (by rw [hs]; rfl)⟩
  waiting {t} ht := by
    refine or_iff_not_imp_left.mpr fun hr => ?_
    have hsome := (i.waiting.sem j).mpr ⟨t, ht⟩
    have hc := (i.counted j).refs
    have hrun := (i.counted j).runs hsome
    have hle := refs_called_le s.worker j
    have hzero : s.pool.queued j + refs WorkerPc.sem s.worker j = 0 := by
      rw [refers_iff] at hr
      omega
    rw [if_pos hsome] at hc
    cases hs : s.pool.sems j <;> simp only [hs, Option.getD_none, Option.getD_some] at hc hrun
    case none => omega
    case some c => exact ⟨congrArg some (by omega), hr, by omega⟩

omit [DecidableEq ι] in
theorem init : Inv m.init where
  numbered := ⟨⟨nofun, nofun, nofun⟩, nofun⟩
  waiting  := ⟨fun j => by
    simp only [Setup.init, Option.isSome_none, Bool.false_eq_true, false_iff, not_exists]
    rintro (w | i) <;> nofun, fun {t j t'} h => by cases t <;> contradiction⟩
  counted j := ⟨by simp [Setup.init, Pool.queued, queued, refs, WorkerPc.sem], nofun⟩
  order     := nofun
  left _    := nofun

-- A worker waits for calls that are later than its own.
theorem order_step (i : Inv s₁) (e : Effect s₁ s₂) (hs : (s₂.worker w).sem = some j)
    (hw : (s₂.worker w).waits = some j') :
    j < j' := by
  have hset {v : Fin n} {pc : WorkerPc φ χ} (hv : pc.waits = none) (hs : (Function.update s₁.worker v pc w).sem = some j)
      (hw : (Function.update s₁.worker v pc w).waits = some j') : j < j' := by
    by_cases hne : w = v
    · rw [hne, Function.update_self, hv] at hw
      contradiction
    · rw [Function.update_of_ne hne] at hs hw
      exact i.order hs hw
  cases e
  case user v sem pc p pc' hp e =>
    by_cases hne : w = v
    · simp only [Config.setWorker, hne, Function.update_self, sem_nextPc, waits_nextPc] at hs hw
      have hlt : j < s₁.pool.results.length := by
        refine i.numbered.pool.sems ?_
        rw [i.sem_of_refers (.inr ⟨v, by rw [hp]; exact hs⟩)]
        rfl
      cases e
      case sync    => exact Option.some.inj hw ▸ hlt
      case acquire => contradiction
      all_goals simp_all
    · simp only [Config.setWorker, Function.update_of_ne hne] at hs hw
      exact i.order hs hw
  case take    => exact hset rfl hs hw
  case leave   => exact hset rfl hs hw
  case run     => exact hset rfl hs hw
  case release => exact hset rfl hs hw
  case client  => exact i.order hs hw
  case stop    => exact i.order hs hw
  case finish  => exact i.order hs hw

theorem left_step (i : Inv s₁) (e : Effect s₁ s₂) (hl : (s₂.worker w).hasLeft) : s₂.pool.stop_ := by
  have hset {v : Fin n} {pc : WorkerPc φ χ} (hv : pc.hasLeft = false) (hl : (Function.update s₁.worker v pc w).hasLeft) :
      s₁.pool.stop_ := by
    by_cases hne : w = v
    · rw [hne, Function.update_self, hv] at hl
      contradiction
    · exact i.left w (by rwa [Function.update_of_ne hne] at hl)
  cases e
  case user sem _ _ pc' _ e =>
    have hnext : (nextPc sem pc' : WorkerPc φ χ).hasLeft = false := by cases pc' <;> cases sem <;> rfl
    exact e.stop_ ▸ hset hnext hl
  case take     => exact hset rfl hl
  case leave hs => exact hs
  case run      => exact hset rfl hl
  case release  => exact hset rfl hl
  case client e => exact e.stop_ ▸ i.left w hl
  case stop     => rfl
  case finish   => exact i.left w hl

theorem step {a : Action n ι} (i : Inv s₁) (h : m.system.step s₁ a = some s₂) : Inv s₂ where
  numbered := i.numbered.step (step_effect h)
  waiting  := i.waiting.step i.numbered.pool (step_effect h)
  counted  := i.counted.step i.numbered (step_effect h)
  order    := i.order_step (step_effect h)
  left _   := i.left_step (step_effect h)

theorem reachable (h : m.system.Reachable s) : Inv s :=
  h.invariant .init .step

end Inv

-- An assertion of `ScheduleById` has failed in a thread.
def Config.Aborted (s : Config n φ χ ι) : Prop :=
  (∃ w sem, s.worker w = .user sem .aborted) ∨ (∃ i, s.client i = some .aborted)

-- A worker waits in a call of `SyncSchedule`, while the function of such a call is in its queue.
def Config.Deadlocked (s : Config n φ χ ι) : Prop :=
  ∃ w, (s.worker w).waits.isSome ∧ ∃ item ∈ s.pool.queues_ w, ∃ j t, item.sem = some j ∧ s.waits t = some j

def Config.Done (s : Config n φ χ ι) : Prop :=
  (∀ w, s.worker w = .idle ∧ s.pool.queues_ w = []) ∧ (∀ i, s.client i = none)

-- A place that user code does not leave on its own.
inductive UserPc.Blocked (p : Pool n φ) : UserPc χ → Prop
  | aborted : Blocked p .aborted
  | acquire : (∀ c, p.sems j ≠ some (c + 1)) → Blocked p (.acquire j k)

inductive WorkerPc.Resting (p : Pool n φ) (w : Fin n) : WorkerPc φ χ → Prop
  | idle : (p.queues_ w = []) → Resting p w .idle
  | user : (pc.Blocked p) → Resting p w (.user o pc)
  | left : Resting p w .left

structure Config.Resting (s : Config n φ χ ι) : Prop where
  worker : ∀ w, (s.worker w).Resting s.pool w
  client : ∀ i pc, s.client i = some pc → pc.Blocked s.pool

namespace Config.Resting

omit [DecidableEq ι] in
theorem blocked {t : ThreadPool.Thread n ι} (hr : s.Resting) (ht : s.waits t = some j) (c : Nat) :
    s.pool.sems j ≠ some (c + 1) := by
  have hpc {pc : UserPc χ} (hb : pc.Blocked s.pool) (hw : pc.waits = some j) : s.pool.sems j ≠ some (c + 1) := by
    cases hb
    case aborted   => contradiction
    case acquire h => exact Option.some.inj hw ▸ h c
  cases t <;> simp only [Config.waits] at ht
  case inl w =>
    have h := hr.worker w
    generalize s.worker w = pc at h ht
    cases h
    case user h => exact hpc h ht
    all_goals contradiction
  case inr i =>
    cases hc : s.client i <;> rw [hc] at ht
    case none => contradiction
    case some => exact hpc (hr.client i _ hc) ht

omit [DecidableEq ι] in
theorem refers {t : ThreadPool.Thread n ι} (hr : s.Resting) (i : Inv s) (ht : s.waits t = some j) : s.Refers j :=
  ((i.synced j).waiting ht).elim (fun h => h) fun h => absurd h.left (hr.blocked ht 0)

omit [DecidableEq ι] in
-- The call that a thread waits for is in a queue, or a worker runs it that waits itself, for a later call. So the last
-- one of these calls is in the queue of a worker that waits.
theorem stuck_of_waits {t : ThreadPool.Thread n ι} (hr : s.Resting) (i : Inv s) (hs : s.pool.stop_ = false)
    (ht : s.waits t = some j) : s.Aborted ∨ s.Deadlocked := by
  induction hk : s.pool.results.length - j using Nat.strongRecOn generalizing j t
  case ind k ih =>
    obtain ⟨w, item, hi, hsem⟩ | ⟨w, hsem⟩ := hr.refers i ht <;> have hw := hr.worker w
    case inl =>
      cases hp : s.worker w <;> rw [hp] at hw <;> cases hw
      case idle hq => simp [hq] at hi
      case user hb =>
        cases hb
        case aborted => exact .inl (.inl ⟨w, _, hp⟩)
        case acquire => exact .inr ⟨w, by rw [hp]; rfl, item, hi, j, t, hsem, ht⟩
      case left => simpa [hs] using i.left w (by rw [hp]; rfl)
    case inr =>
      cases hp : s.worker w <;> rw [hp] at hw <;> cases hw
      case idle => rw [hp] at hsem; contradiction
      case user hb =>
        cases hb
        case aborted => exact .inl (.inl ⟨w, _, hp⟩)
        case acquire j' k' hj =>
          have hwait : (s.worker w).waits = some j' := by rw [hp]; rfl
          have hlt := i.order hsem hwait
          have hlen := i.numbered.pool.sems ((i.waiting.sem j').mpr ⟨.inl w, hwait⟩)
          exact ih _ (by omega) (t := .inl w) hwait rfl
      case left => rw [hp] at hsem; contradiction

omit [DecidableEq ι] in
theorem done_or_stuck (hr : s.Resting) (i : Inv s) (hs : s.pool.stop_ = false) : s.Done ∨ s.Aborted ∨ s.Deadlocked := by
  by_cases hwait : ∃ t j, s.waits t = some j
  case pos =>
    obtain ⟨t, j, ht⟩ := hwait
    exact .inr (hr.stuck_of_waits i hs ht)
  case neg =>
    by_cases ha : s.Aborted
    case pos => exact .inr (.inl ha)
    case neg =>
      refine .inl ⟨fun w => ?_, fun c => ?_⟩
      · have hw := hr.worker w
        cases hp : s.worker w <;> rw [hp] at hw <;> cases hw
        case idle hq => exact ⟨rfl, hq⟩
        case user hb =>
          cases hb
          case aborted => exact absurd (.inl ⟨w, _, hp⟩) ha
          case acquire => exact absurd ⟨.inl w, _, by rw [Config.waits, hp]; rfl⟩ hwait
        case left => simpa [hs] using i.left w (by rw [hp]; rfl)
      · cases hc : s.client c
        case none => rfl
        case some =>
          have hb := hr.client c _ hc
          cases hb
          case aborted => exact absurd (.inr ⟨c, hc⟩) ha
          case acquire => exact absurd ⟨.inr c, _, by rw [Config.waits, hc]; rfl⟩ hwait

end Config.Resting

-- Code that does not call `SyncSchedule`, nor does the code that it goes on with.
structure Setup.Asynchronous (m : Setup n φ χ ι) (code : χ → Prop) : Prop where
  skip         : code c → m.instr c = .skip c' → code c'
  scheduleById : code c → m.instr c = .scheduleById fn x k → ∀ e, code (k e)
  syncSchedule : code c → m.instr c ≠ .syncSchedule func k'

def UserPc.Asynchronous (code : χ → Prop) : UserPc χ → Prop
  | .code c      => code c
  | .acquire _ _ => False
  | .aborted     => True

def Config.Asynchronous (s : Config n φ χ ι) (code : χ → Prop) : Prop :=
  ∀ w sem pc, s.worker w = .user sem pc → pc.Asynchronous code

section Asynchronous

variable {code : χ → Prop}

omit [DecidableEq ι] in
theorem Config.Asynchronous.setWorker {w : Fin n} (h : s.Asynchronous code)
    (hpc : ∀ sem upc, pc = .user sem upc → upc.Asynchronous code) :
    ({ s with pool := p }.setWorker w pc).Asynchronous code := by
  intro w' sem upc hw
  by_cases hne : w' = w
  · subst hne
    exact hpc sem upc (by simpa [Config.setWorker] using hw)
  · exact h w' sem upc (by simpa [Config.setWorker, Function.update_of_ne hne] using hw)

variable (ha : m.Asynchronous code)

include ha

omit [DecidableEq ι] in
theorem stepUser_asynchronous (h : UserPc.Asynchronous code pc₁) (e : m.stepUser p₁ r pc₁ = some (p₂, some pc₂)) :
    pc₂.Asynchronous code := by
  cases pc₁
  case code c =>
    simp only [Setup.stepUser] at e
    split at e
    case h_1 => simp at e
    case h_2 hi => cases e; exact ha.skip h hi
    case h_3 hi => cases e; exact ha.scheduleById h hi _
    case h_4 hi =>
      repeat' split at e
      all_goals cases e
      case isFalse.isFalse.isFalse => exact trivial
      all_goals exact ha.scheduleById h hi _
    case h_5 hi => exact absurd hi (ha.syncSchedule h)
  case acquire => contradiction
  case aborted => contradiction

theorem Config.Asynchronous.step {a : Action n ι} (h : s₁.Asynchronous code) (he : ∀ fn, code (m.entry fn))
    (e : m.system.step s₁ a = some s₂) : s₂.Asynchronous code := by
  cases a <;> simp only [Setup.system, Setup.step] at e
  case worker w r =>
    cases hp : s₁.worker w <;> simp only [Setup.stepWorker, hp] at e <;> try contradiction
    case run item =>
      cases e
      exact h.setWorker fun sem upc hu => by cases hu; exact he item.fn
    case release => cases e; exact h.setWorker nofun
    case user sem pc =>
      split at e <;> cases e
      case h_1 hu => exact h.setWorker fun _ _ hpc => by cases hpc; exact stepUser_asynchronous ha (h w sem pc hp) hu
      case h_2 hu => exact h.setWorker fun _ _ hpc => by cases sem <;> contradiction
  case client i r =>
    split at e <;> try contradiction
    obtain ⟨⟨p, pc⟩, _, rfl⟩ := Option.map_eq_some_iff.mp e
    exact h
  case take =>
    split at e <;> try contradiction
    split at e <;> cases e
    exact h.setWorker nofun
  case leave =>
    split at e <;> try contradiction
    split at e <;> cases e
    exact h.setWorker (p := s₁.pool) nofun
  all_goals
    split at e <;> cases e
    exact h

end Asynchronous

theorem Config.Asynchronous.reachable {code : χ → Prop} (ha : m.Asynchronous code) (he : ∀ fn, code (m.entry fn))
    (h : m.system.Reachable s) : s.Asynchronous code :=
  h.invariant (I := (·.Asynchronous code)) nofun fun hc e => hc.step ha he e

omit [DecidableEq ι] in
theorem Config.Asynchronous.not_waits {code : χ → Prop} (h : s.Asynchronous code) (w : Fin n) :
    (s.worker w).waits = none := by
  cases hp : s.worker w
  case user sem pc =>
    have := h w sem pc hp
    cases pc <;> simp_all [WorkerPc.waits, UserPc.waits, UserPc.Asynchronous]
  all_goals rfl

end AtomicPool
end AsyncSimple
