import AsyncSimple.Executor.SyncSchedule
import AsyncSimple.Util.Theorems.AtomicPool
import AsyncSimple.Util.Theorems.Shutdown

open Transition

namespace AsyncSimple

namespace ThreadPool

variable {n : Nat} {φ χ ι : Type} {m : Setup n φ χ ι} {s s₁ s₂ : Config n φ χ ι}

-- The destructor stops the pool before its queues.
structure Orderly (s : Config n φ χ ι) : Prop where
  stop_ : s.stop_ = true ↔ s.destructor ≠ .start
  queue : ∀ id, (s.queues_ id).stop_ → s.stop_

theorem WorkerEffect.stop_ [NeZero n] {id : Fin n} (e : WorkerEffect s₁ id r s₂) : s₂.stop_ = s₁.stop_ := by
  cases e
  case user _ e _ => exact e.kept.stop_
  all_goals rfl

namespace Orderly

theorem init : Orderly m.init where
  stop_ := by simp [Setup.init]
  queue := nofun

theorem of_kept (h : Orderly s₁) (hd : s₂.destructor = s₁.destructor) (hs : s₂.stop_ = s₁.stop_)
    (hq : ∀ id, (s₂.queues_ id).stop_ = (s₁.queues_ id).stop_) : Orderly s₂ where
  stop_ := by rw [hd, hs, h.stop_]
  queue id := by
    rw [hq, hs]
    exact h.queue id

theorem stepDestructor (h : Orderly s₁) (e : Setup.stepDestructor s₁ = some s₂) : Orderly s₂ := by
  cases hd : s₁.destructor <;> simp only [Setup.stepDestructor, hd] at e
  case start =>
    cases e
    exact ⟨by simp, fun _ _ => rfl⟩
  case finished => contradiction
  all_goals
    have hs : s₁.stop_ := h.stop_.mpr (by simp [hd])
    split at e <;> try split at e
    all_goals cases e <;> exact ⟨by simp [hs, Config.setQueue], fun _ _ => hs⟩

variable [NeZero n] [DecidableEq ι]

theorem step {a : Action n ι} (h : Orderly s₁) (e : m.system.step s₁ a = some s₂) : Orderly s₂ := by
  cases a
  case worker id r =>
    have he := stepWorker_effect e
    exact h.of_kept he.destructor he.stop_ (stepWorker_stop e)
  case client i r =>
    simp only [Setup.system, Setup.stepClient] at e
    split at e <;> try contradiction
    case h_1 =>
    obtain ⟨⟨s, pc⟩, hu, rfl⟩ := Option.map_eq_some_iff.mp e
    have hk := (stepUser_effect hu).kept
    exact h.of_kept hk.destructor hk.stop_ hk.queue
  case destructor => exact h.stepDestructor e

end Orderly

-- All threads are at the same place.
structure Still (s₁ s₂ : Config n φ χ ι) : Prop where
  worker     : s₂.worker = s₁.worker
  client     : s₂.client = s₁.client
  destructor : s₂.destructor = s₁.destructor

-- A running call of `ScheduleById` that has not taken effect yet, with its arguments.
inductive SchedulePc.Calls (enable_work_steal_ : Bool) : SchedulePc n φ → φ → Int → Prop
  | readStop : Calls enable_work_steal_ (.readStop fn x) fn x
  | tryPush  : (enable_work_steal_) → Calls enable_work_steal_ (.tryPush fn i) fn (-1)
  | pushAny  : Calls enable_work_steal_ (.push enable_work_steal_ fn v) fn (-1)
  | push {x : Int} : (h : 0 ≤ x ∧ x < n) →
    Calls enable_work_steal_ (.push false fn ⟨x.toNat, AtomicPool.toNat_lt_of_range h⟩) fn x

end ThreadPool

namespace SyncSchedule

variable {n : Nat} {φ χ ι : Type}

-- The code of a thread, and what is left of it on the atomic pool, where `count` is the semaphore of the thread.
inductive Code.Refines (m : AtomicPool.Setup n φ χ ι) (t : ThreadPool.Thread n ι) (count : Option Nat)
    (sem : Option (ThreadPool.Thread n ι)) :
    ThreadPool.UserPc n (Func n φ ι) (Code n χ ι) → AtomicPool.UserPc χ → Prop
  | user     : Refines m t count sem (.code (.user sem c)) (.code c)
  | schedule : (instr m t (.user sem c) = .scheduleById (some fn) x k) → (pc.Calls m.enable_work_steal_ fn x) →
    (fn.sem.isSome → count = some 0) → Refines m t count sem (.schedule k pc) (.code c)
  | acquire  : Refines m t count sem (.code (.acquire sem k)) (.acquire j k)
  | refused  : Refines m t count sem (.code (.refused sem k)) (.code (k false))
  | aborted  : Refines m t count sem .aborted .aborted

-- The place of a thread after a step of its code. The function of `SyncSchedule` releases a semaphore before it returns.
inductive Code.RefinesNext (m : AtomicPool.Setup n φ χ ι) (t : ThreadPool.Thread n ι) (count : Option Nat)
    (sem : Option (ThreadPool.Thread n ι)) :
    Option (ThreadPool.UserPc n (Func n φ ι) (Code n χ ι)) → Option (AtomicPool.UserPc χ) → Prop
  | some    : (Code.Refines m t count sem pc upc) → RefinesNext m t count sem (some pc) (some upc)
  | none    : (sem = none) → RefinesNext m t count sem none none
  | release : (sem = some o) → RefinesNext m t count sem (some (.code (.release o))) none

-- The semaphore of a thread has the number of the call that the thread waits for.
abbrev Names (waits : ThreadPool.Thread n ι → Option Nat) : Option (ThreadPool.Thread n ι) → Option Nat → Prop :=
  Option.Rel fun o j => waits o = some j

structure Item.Refines (waits : ThreadPool.Thread n ι → Option Nat) (item : ThreadPool.WorkItem (Func n φ ι))
    (item' : AtomicPool.WorkItem φ) : Prop where
  can_steal : item'.can_steal = item.can_steal
  fn        : item'.fn = item.fn.f
  call      : item'.call = item.call
  sem       : Names waits item.fn.sem item'.sem

inductive Worker.Refines (m : AtomicPool.Setup n φ χ ι) (waits : ThreadPool.Thread n ι → Option Nat)
    (t : ThreadPool.Thread n ι) (count : Option Nat) :
    ThreadPool.WorkerPc n (Func n φ ι) (Code n χ ι) → AtomicPool.WorkerPc φ χ → Prop
  | top     : Refines m waits t count .top .idle
  | steal   : Refines m waits t count (.steal i) .idle
  | pop     : Refines m waits t count .pop .idle
  | run     : (Item.Refines waits item item') → Refines m waits t count (.run item) (.run item')
  | user    : (Names waits sem o) → (Code.Refines m t count sem pc upc) →
    Refines m waits t count (.user pc) (.user o upc)
  | release : (waits o = some j) → Refines m waits t count (.user (.code (.release o))) (.release j)
  | left    : Refines m waits t count .left .left

-- What the threads of both pools share.
structure Shared (waits : ThreadPool.Thread n ι → Option Nat) (s : Config n φ χ ι) (p : AtomicPool.Pool n φ) :
    Prop where
  queue   : ∀ v, List.Forall₂ (Item.Refines waits) (s.pool.queues_ v).queue_ (p.queues_ v)
  stop_   : p.stop_ = s.pool.stop_
  results : p.results = s.pool.results
  runs    : p.runs = s.pool.runs
  calls   : waits o = some j → s.calls o = j
  sems    : waits o = some j → s.sems o = p.sems j

structure Refines (m : AtomicPool.Setup n φ χ ι) (s : Config n φ χ ι) (t : AtomicPool.Config n φ χ ι) : Prop where
  inv      : AtomicPool.Inv t
  pool     : ThreadPool.Inv s.pool
  orderly  : ThreadPool.Orderly s.pool
  shared   : Shared t.waits s t.pool
  worker   : ∀ w, Worker.Refines m t.waits (.inl w) (s.sems (.inl w)) (s.pool.worker w) (t.worker w)
  client   : ∀ i, Option.Rel (Code.Refines m (.inr i) (s.sems (.inr i)) none) (s.pool.client i) (t.client i)
  finished : t.finished = true ↔ s.pool.destructor = .finished

section Frame

variable {m : AtomicPool.Setup n φ χ ι} {th : ThreadPool.Thread n ι} {W₁ W₂ : ThreadPool.Thread n ι → Option Nat}
  {c₁ c₂ : Option Nat}

theorem Names.frame (h : Names W₁ sem o) (hW : ∀ {o' j}, o = some j → W₁ o' = some j → W₂ o' = some j) :
    Names W₂ sem o := by
  cases h
  case none   => exact .none
  case some h => exact .some (hW rfl h)

theorem Code.Refines.frame (h : Code.Refines m th c₁ sem pc upc) (hc : c₂ = c₁ ∨ upc.waits.isSome) :
    Code.Refines m th c₂ sem pc upc := by
  cases h
  case schedule hi hp hs =>
    obtain rfl | hc := hc
    · exact .schedule hi hp hs
    · contradiction
  case user    => exact .user
  case acquire => exact .acquire
  case refused => exact .refused
  case aborted => exact .aborted

theorem Item.Refines.frame (h : Item.Refines W₁ item item')
    (hW : ∀ {o j}, item'.sem = some j → W₁ o = some j → W₂ o = some j) : Item.Refines W₂ item item' :=
  ⟨h.can_steal, h.fn, h.call, h.sem.frame hW⟩

theorem Worker.Refines.frame (h : Worker.Refines m W₁ th c₁ pc pc')
    (hW : ∀ {o j}, pc'.sem = some j → W₁ o = some j → W₂ o = some j) (hc : c₂ = c₁ ∨ pc'.waits.isSome) :
    Worker.Refines m W₂ th c₂ pc pc' := by
  cases h
  case top       => exact .top
  case steal     => exact .steal
  case pop       => exact .pop
  case run h     => exact .run (h.frame hW)
  case user h hu => exact .user (h.frame hW) (hu.frame hc)
  case release h => exact .release (hW rfl h)
  case left      => exact .left

theorem forall₂_frame {q : List (ThreadPool.WorkItem (Func n φ ι))} {q' : List (AtomicPool.WorkItem φ)}
    (h : List.Forall₂ (Item.Refines W₁) q q')
    (hW : ∀ {o j}, ∀ item ∈ q', item.sem = some j → W₁ o = some j → W₂ o = some j) :
    List.Forall₂ (Item.Refines W₂) q q' := by
  induction h
  case nil => exact .nil
  case cons h _ ih =>
    exact .cons (h.frame (hW _ List.mem_cons_self)) (ih fun item hi => hW item (List.mem_cons_of_mem _ hi))

theorem exists_mem {α β : Type} {R : α → β → Prop} {q : List α} {q' : List β} {x : α} (h : List.Forall₂ R q q')
    (hx : x ∈ q) : ∃ y ∈ q', R x y := by
  induction h
  case nil => contradiction
  case cons z z' _ _ h _ ih =>
    obtain rfl | hx := List.mem_cons.mp hx
    · exact ⟨z', List.mem_cons_self, h⟩
    · obtain ⟨y, hy, h⟩ := ih hx
      exact ⟨y, List.mem_cons_of_mem _ hy, h⟩

theorem Worker.Refines.hasLeft (h : Worker.Refines m W₁ th c pc pc') : pc'.hasLeft = pc.hasLeft := by
  cases h <;> rfl

theorem Code.RefinesNext.worker (h : Code.RefinesNext m th c sem pc upc) (hn : Names W₁ sem a) :
    Worker.Refines m W₁ th c (pc.elim .top .user) (AtomicPool.nextPc a upc) := by
  cases h
  case some h    => exact .user hn h
  case none h    => subst h; cases hn; exact .top
  case release h => subst h; cases hn; exact .release ‹_›

theorem Code.RefinesNext.client (h : Code.RefinesNext m th c Option.none pc upc) :
    Option.Rel (Code.Refines m th c Option.none) pc upc := by
  cases h
  case some h    => exact .some h
  case none      => exact .none
  case release h => contradiction

end Frame

namespace Shared

variable {m : AtomicPool.Setup n φ χ ι} {th : ThreadPool.Thread n ι} {W : ThreadPool.Thread n ι → Option Nat}
  {s : Config n φ χ ι} {p : AtomicPool.Pool n φ}

theorem result (h : Shared W s p) : Shared W { s with pool := s.pool.result e } (p.result e) where
  queue   := h.queue
  stop_   := h.stop_
  results := congrArg (· ++ [e]) h.results
  runs    := h.runs
  calls   := h.calls
  sems    := h.sems

theorem setQueue {q : ThreadsafeQueue (ThreadPool.WorkItem (Func n φ ι))} {q' : List (AtomicPool.WorkItem φ)}
    (h : Shared W s p) (v : Fin n) (hq : List.Forall₂ (Item.Refines W) q.queue_ q') :
    Shared W { s with pool := s.pool.setQueue v q } (p.setQueue v q') where
  queue v' := by
    by_cases hv : v' = v
    · subst hv
      simpa [ThreadPool.Config.setQueue, AtomicPool.Pool.setQueue]
    · simpa [ThreadPool.Config.setQueue, AtomicPool.Pool.setQueue, Function.update_of_ne hv] using h.queue v'
  stop_   := h.stop_
  results := h.results
  runs    := h.runs
  calls   := h.calls
  sems    := h.sems

theorem push {fn : Func n φ ι} (h : Shared W s p) (v : Fin n) (b : Bool) (hn : Names W fn.sem o) :
    Shared W
      { s with
        pool := (s.pool.setQueue v ((s.pool.queues_ v).push ⟨b, fn, s.pool.results.length⟩)).result .kErrorNone }
      (p.push v b fn.f o) := by
  have hi : Item.Refines W ⟨b, fn, s.pool.results.length⟩ ⟨b, fn.f, p.results.length, o⟩ :=
    ⟨rfl, rfl, congrArg List.length h.results, hn⟩
  exact (h.setQueue v (List.rel_append (h.queue v) (.cons hi .nil))).result

theorem run (h : Shared W s p) (w : Fin n) {c c' : Nat} (hc : c' = c) :
    Shared W { s with pool := { s.pool with runs := s.pool.runs ++ [(w, c)] } } (p.run w c') where
  queue   := h.queue
  stop_   := h.stop_
  results := h.results
  runs    := by rw [hc, AtomicPool.Pool.run, h.runs]
  calls   := h.calls
  sems    := h.sems

variable [DecidableEq ι]

theorem update_none (h : Shared W s p) (hw : W th = none) (ho : o = none) : Shared (Function.update W th o) s p := by
  rwa [ho, ← hw, Function.update_eq_self]

-- A thread that does not wait takes a step.
theorem idle {sems : ThreadPool.Thread n ι → Option Nat} (h : Shared W s p) (hw : W th = none)
    (hs : ∀ o, o ≠ th → sems o = s.sems o) : Shared W ⟨s.pool, sems, Function.update s.calls th x⟩ p := by
  have hne {o j} (ho : W o = some j) : o ≠ th := by
    rintro rfl
    simp [hw] at ho
  refine ⟨h.queue, h.stop_, h.results, h.runs, fun ho => ?_, fun ho => ?_⟩
  · exact (Function.update_of_ne (hne ho) ..).trans (h.calls ho)
  · exact (hs _ (hne ho)).trans (h.sems ho)

-- A thread begins to wait, after a call with a new number.
theorem sync (h : Shared W s p) (hw : W th = none) (hj : ∀ {o j'}, W o = some j' → j' ≠ j) (hs : s.sems th = some 0) :
    Shared (Function.update W th (some j)) { s with calls := Function.update s.calls th j } (p.setSem j (some 0)) where
  queue v := forall₂_frame (h.queue v) fun {o _} _ _ _ ho => by
    rwa [Function.update_of_ne]
    rintro rfl
    simp [hw] at ho
  stop_   := h.stop_
  results := h.results
  runs    := h.runs
  calls {o j'} ho := by
    by_cases hth : o = th
    · subst hth
      simpa using ho
    · rw [Function.update_of_ne hth] at ho
      exact (Function.update_of_ne hth ..).trans (h.calls ho)
  sems {o j'} ho := by
    by_cases hth : o = th
    · subst hth
      rw [Function.update_self, Option.some.injEq] at ho
      simp [AtomicPool.Pool.setSem, ho, hs]
    · rw [Function.update_of_ne hth] at ho
      exact (h.sems ho).trans (Function.update_of_ne (hj ho) ..).symm

-- A thread that no function refers to any more stops waiting.
theorem acquire (h : Shared W s p) (hw : W th = some j) (hj : ∀ {o}, W o = some j → o = th)
    (hr : ∀ v, ∀ item ∈ p.queues_ v, item.sem ≠ some j) :
    Shared (Function.update W th none) ⟨s.pool, Function.update s.sems th none, Function.update s.calls th x⟩
      (p.setSem j none) where
  queue v := forall₂_frame (h.queue v) fun {o _} item hi hsem ho => by
    rwa [Function.update_of_ne]
    rintro rfl
    rw [hw] at ho
    exact hr v item hi (hsem.trans ho.symm)
  stop_   := h.stop_
  results := h.results
  runs    := h.runs
  calls {o j'} ho := by
    by_cases hth : o = th
    · simp [hth] at ho
    · rw [Function.update_of_ne hth] at ho
      exact (Function.update_of_ne hth ..).trans (h.calls ho)
  sems {o j'} ho := by
    by_cases hth : o = th
    · simp [hth] at ho
    · rw [Function.update_of_ne hth] at ho
      have hne : j' ≠ j := by
        rintro rfl
        exact hth (hj ho)
      exact (Function.update_of_ne hth ..).trans ((h.sems ho).trans (Function.update_of_ne hne ..).symm)

-- The semaphore of a thread that waits is released.
theorem release (h : Shared W s p) (ho : W o = some j) (hj : ∀ {o'}, W o' = some j → o' = o) (hw : W th = none) :
    Shared W ⟨s.pool, Function.update s.sems o ((s.sems o).map (· + 1)), Function.update s.calls th x⟩
      (p.release j) where
  queue   := h.queue
  stop_   := h.stop_
  results := h.results
  runs    := h.runs
  calls   := (h.idle (x := x) hw fun _ _ => rfl).calls
  sems {o' j'} ho' := by
    by_cases hne : o' = o
    · subst hne
      obtain rfl : j' = j := Option.some.inj (ho'.symm.trans ho)
      simp [AtomicPool.Pool.release, AtomicPool.Pool.setSem, h.sems ho]
    · have hne' : j' ≠ j := by
        rintro rfl
        exact hne (hj ho')
      exact (Function.update_of_ne hne ..).trans ((h.sems ho').trans (Function.update_of_ne hne' ..).symm)

end Shared

section User

variable {m : AtomicPool.Setup n φ χ ι} {th : ThreadPool.Thread n ι} {s : Config n φ χ ι} {t : AtomicPool.Config n φ χ ι}

-- A call of `ScheduleById` is one of the user code, or the one in `SyncSchedule`.
theorem instr_scheduleById (h : instr m th (.user sem c) = .scheduleById (some fn) x k) :
    (∃ k', m.instr c = .scheduleById (some fn.f) x k' ∧ fn.sem = none ∧ k = fun e => .user sem (k' e)) ∨
    (∃ k', m.instr c = .syncSchedule fn.f k' ∧ fn.sem = some th ∧ x = -1 ∧ k = afterSchedule sem k') := by
  cases hi : m.instr c <;> simp only [instr, hi] at h
  case ret => cases sem <;> contradiction
  case skip => contradiction
  case scheduleById fn' x' k' =>
    cases fn' <;> cases h
    exact .inl ⟨k', rfl, rfl, rfl⟩
  case syncSchedule func k' =>
    cases h
    exact .inr ⟨k', rfl, rfl, rfl, rfl⟩

section Call

variable {sem : Option (ThreadPool.Thread n ι)} {c : χ} {fn : Func n φ ι} {x : Int}
  {k : ThreadPool.ErrorType → Code n χ ι} (hi : instr m th (.user sem c) = .scheduleById (some fn) x k)

include hi in
theorem call_refuse [NeZero n] {p : AtomicPool.Pool n φ} (hs : p.stop_) :
    ∃ upc, m.stepUser p ⟨true, 0⟩ (.code c) = some (p.result .kErrorPoolHasStop, some upc) ∧
      upc.waits = none ∧ Code.Refines m th count sem (.code (k .kErrorPoolHasStop)) upc := by
  obtain ⟨k', hc, _, rfl⟩ | ⟨k', hc, _, _, rfl⟩ := instr_scheduleById hi
  · exact ⟨.code (k' .kErrorPoolHasStop), by simp [AtomicPool.Setup.stepUser, hc, hs], rfl, .user⟩
  · exact ⟨.code (k' false), by simp [AtomicPool.Setup.stepUser, hc, hs], rfl, .refused⟩

variable [DecidableEq ι]

include hi in
theorem call_push {v : Fin n} {b : Bool} (h : Shared t.waits s t.pool) (i : AtomicPool.Inv t) (hw : t.waits th = none)
    (hs : fn.sem.isSome → s.sems th = some 0)
    (hv : (x = -1 ∧ b = m.enable_work_steal_) ∨
      (∃ hx : 0 ≤ x ∧ x < n, v = ⟨x.toNat, AtomicPool.toNat_lt_of_range hx⟩ ∧ b = false)) :
    ∃ p upc, m.stepUser t.pool ⟨false, v⟩ (.code c) = some (p, some upc) ∧
      Shared (Function.update t.waits th upc.waits)
        ⟨(s.pool.setQueue v ((s.pool.queues_ v).push ⟨b, fn, s.pool.results.length⟩)).result .kErrorNone, s.sems,
          Function.update s.calls th s.pool.results.length⟩ p ∧
      Code.Refines m th (s.sems th) sem (.code (k .kErrorNone)) upc := by
  obtain ⟨k', hc, hsem, rfl⟩ | ⟨k', hc, hsem, rfl, rfl⟩ := instr_scheduleById hi
  · refine ⟨t.pool.push v b fn.f none, .code (k' .kErrorNone), ?_, ?_, .user⟩
    · obtain ⟨rfl, rfl⟩ | ⟨hx, rfl, rfl⟩ := hv
      · simp [AtomicPool.Setup.stepUser, hc]
      · have hne : x ≠ -1 := by omega
        simp [AtomicPool.Setup.stepUser, hc, hne, hx]
    · exact (h.idle hw fun _ _ => rfl).push v b (hsem ▸ .none) |>.update_none hw rfl
  · obtain ⟨_, rfl⟩ | ⟨hx, _⟩ := hv
    · have hlen : t.pool.results.length = s.pool.results.length := congrArg List.length h.results
      have hj {o j'} (ho : t.waits o = some j') : j' ≠ s.pool.results.length := by
        have := i.numbered.pool.sems ((i.waiting.sem j').mpr ⟨o, ho⟩)
        omega
      have hsync := h.sync hw hj (hs (by simp [hsem]))
      have hn : Names (Function.update t.waits th (some s.pool.results.length)) fn.sem (some s.pool.results.length) :=
        hsem ▸ .some (Function.update_self ..)
      refine ⟨_, .acquire s.pool.results.length k', ?_, hsync.push v m.enable_work_steal_ hn, .acquire⟩
      simp [AtomicPool.Setup.stepUser, hc, hlen]
    · omega

end Call

variable [DecidableEq ι]

-- Only a function from `SyncSchedule` touches the semaphore of another thread.
theorem stepSems_ne (hr : Code.Refines m th count sem pc upc) (h : stepSems m s.sems th pc = some sems) (ho : o ≠ th) :
    sems o = s.sems o := by
  cases hr <;> simp only [stepSems] at h
  case user => split at h <;> cases h <;> simp [Function.update_of_ne ho]
  case acquire => split at h <;> cases h; exact Function.update_of_ne ho ..
  case refused => cases h; exact Function.update_of_ne ho ..
  all_goals cases h; rfl

-- A semaphore that a function refers to keeps its name.
theorem waits_of_refers (i : AtomicPool.Inv t) (e : AtomicPool.UserEffect t.pool upc p upc') (hw : t.waits th = upc.waits)
    (hr : t.Refers j) (ho : t.waits o = some j) :
    Function.update t.waits th (upc'.bind AtomicPool.UserPc.waits) o = some j := by
  by_cases hth : o = th
  · subst hth
    rw [hw] at ho
    cases e
    case acquire hj =>
      cases ho
      simp [i.sem_of_refers hr] at hj
    all_goals simp_all
  · rwa [Function.update_of_ne hth]

variable [NeZero n]

theorem stepSchedule_refines {pc : ThreadPool.SchedulePc n (Func n φ ι)} (i : AtomicPool.Inv t)
    (h : Shared t.waits s t.pool) (hw : t.waits th = none)
    (hi : instr m th (.user sem c) = .scheduleById (some fn) x k) (hp : pc.Calls m.enable_work_steal_ fn x)
    (hs : fn.sem.isSome → s.sems th = some 0) (e : (setup m th).stepSchedule s.pool k r pc = (pool, pc₂)) :
    let s₂ : Config n φ χ ι := ⟨pool, s.sems, Function.update s.calls th s.pool.results.length⟩
    (Shared t.waits s₂ t.pool ∧ Code.Refines m th (s.sems th) sem pc₂ (.code c)) ∨
    ∃ r' p upc, m.stepUser t.pool r' (.code c) = some (p, some upc) ∧
      Shared (Function.update t.waits th upc.waits) s₂ p ∧ Code.Refines m th (s.sems th) sem pc₂ upc := by
  have hidle : Shared t.waits ⟨s.pool, s.sems, Function.update s.calls th s.pool.results.length⟩ t.pool :=
    h.idle hw fun _ _ => rfl
  cases hp
  case readStop =>
    simp only [ThreadPool.Setup.stepSchedule] at e
    split at e
    case isTrue hstop =>
      cases e
      obtain ⟨upc, hu, hw', hr⟩ := call_refuse hi (h.stop_.trans hstop)
      exact .inr ⟨_, _, upc, hu, hidle.result.update_none hw hw', hr⟩
    case isFalse =>
      split at e
      case isTrue hx =>
        subst hx
        split at e <;> cases e
        case isTrue hsteal => exact .inl ⟨hidle, .schedule hi (.tryPush hsteal) hs⟩
        case isFalse       => exact .inl ⟨hidle, .schedule hi .pushAny hs⟩
      case isFalse hx =>
        split at e <;> cases e
        case isTrue hr => exact .inl ⟨hidle, .schedule hi (.push hr) hs⟩
        case isFalse hr =>
          obtain ⟨k', hc, _, _⟩ | ⟨_, _, _, hx', _⟩ := instr_scheduleById hi
          · refine .inr ⟨⟨false, 0⟩, t.pool, .aborted, ?_, hidle.update_none hw rfl, .aborted⟩
            simp [AtomicPool.Setup.stepUser, hc, hx, hr]
          · contradiction
  case tryPush j hsteal =>
    simp only [ThreadPool.Setup.stepSchedule, ThreadsafeQueue.tryPush] at e
    by_cases hj : j < n * 2 <;> cases hl : r.lock <;> simp only [hj, hl, if_true, if_false, Bool.false_eq_true] at e <;>
      cases e
    case pos.true =>
      obtain ⟨p, upc, hpush⟩ := call_push (b := true) (v := Fin.ofNat n j) hi h i hw hs (.inl ⟨rfl, hsteal.symm⟩)
      exact .inr ⟨_, p, upc, hpush⟩
    case pos.false => exact .inl ⟨hidle, .schedule hi (.tryPush hsteal) hs⟩
    all_goals exact .inl ⟨hidle, .schedule hi .pushAny hs⟩
  case pushAny v =>
    cases e
    obtain ⟨p, upc, hpush⟩ := call_push (v := v) hi h i hw hs (.inl ⟨rfl, rfl⟩)
    exact .inr ⟨_, p, upc, hpush⟩
  case push hx =>
    cases e
    obtain ⟨p, upc, hpush⟩ := call_push hi h i hw hs (.inr ⟨hx, rfl, rfl⟩)
    exact .inr ⟨_, p, upc, hpush⟩

-- A step of the code of a thread is one on the atomic pool, or the call that it is a part of takes its effect later.
theorem stepUser_refines (i : AtomicPool.Inv t) (h : Shared t.waits s t.pool) (hw : t.waits th = upc₁.waits)
    (hr : Code.Refines m th (s.sems th) sem pc₁ upc₁) (hs : stepSems m s.sems th pc₁ = some sems)
    (e : (setup m th).stepUser s.pool r pc₁ = some (pool, pc₂)) :
    let s₂ : Config n φ χ ι := ⟨pool, sems, Function.update s.calls th s.pool.results.length⟩
    (Shared t.waits s₂ t.pool ∧ ∃ pc, pc₂ = some pc ∧ Code.Refines m th (sems th) sem pc upc₁) ∨
    ∃ r' p upc₂, m.stepUser t.pool r' upc₁ = some (p, upc₂) ∧
      Shared (Function.update t.waits th (upc₂.bind AtomicPool.UserPc.waits)) s₂ p ∧
      Code.RefinesNext m th (sems th) sem pc₂ upc₂ := by
  have hne := fun o ho => stepSems_ne (o := o) hr hs ho
  cases hr
  case user c =>
    have hidle : Shared t.waits ⟨s.pool, sems, Function.update s.calls th s.pool.results.length⟩ t.pool :=
      h.idle hw hne
    simp only [ThreadPool.Setup.stepUser, setup] at e
    cases hi : m.instr c <;> simp only [stepSems, instr, hi] at hs e
    case ret =>
      have hret : m.stepUser t.pool ⟨false, 0⟩ (.code c) = some (t.pool, none) := by
        simp [AtomicPool.Setup.stepUser, hi]
      cases hs
      cases sem <;> cases e
      · exact .inr ⟨_, _, none, hret, hidle.update_none hw rfl, .none rfl⟩
      · exact .inr ⟨_, _, none, hret, hidle.update_none hw rfl, .release rfl⟩
    case skip c' =>
      cases hs; cases e
      refine .inr ⟨⟨false, 0⟩, _, some (.code c'), ?_, hidle.update_none hw rfl, .some .user⟩
      simp [AtomicPool.Setup.stepUser, hi]
    case scheduleById fn x k =>
      cases hs
      cases fn <;> simp only [Option.map] at e <;> cases e
      · refine .inr ⟨⟨false, 0⟩, _, some (.code (k .kErrorPoolItemIsNull)), ?_, hidle.result.update_none hw rfl,
          .some .user⟩
        simp [AtomicPool.Setup.stepUser, hi]
      · exact .inl ⟨hidle, _, rfl, .schedule (by simp [instr, hi]) .readStop (by simp)⟩
    case syncSchedule func k =>
      cases hs; cases e
      exact .inl ⟨hidle, _, rfl, .schedule (by simp [instr, hi]) .readStop fun _ => Function.update_self ..⟩
  case schedule hi hp hc =>
    simp only [ThreadPool.Setup.stepUser, Option.some.injEq, Prod.mk.injEq] at e
    obtain ⟨rfl, rfl⟩ := e
    cases hs
    obtain ⟨h, hr⟩ | ⟨r', p, upc, hu, h, hr⟩ := stepSchedule_refines i h hw hi hp hc rfl
    · exact .inl ⟨h, _, rfl, hr⟩
    · exact .inr ⟨r', p, some upc, hu, h, .some hr⟩
  case acquire k j =>
    simp only [stepSems] at hs
    split at hs <;> cases hs
    case h_1 c hc =>
    cases e
    have hcount := (h.sems hw).symm.trans hc
    refine .inr ⟨⟨false, 0⟩, t.pool.setSem j none, some (.code (k true)), ?_, ?_, .some .user⟩
    · simp [AtomicPool.Setup.stepUser, hcount]
    · refine h.acquire hw (fun ho => i.waiting.unique ho hw) fun v item hi hj => ?_
      simp [i.sem_of_refers (.inl ⟨v, item, hi, hj⟩)] at hcount
  case refused k =>
    cases hs; cases e
    exact .inl ⟨h.idle hw hne, _, rfl, .user⟩
  case aborted => contradiction

end User

variable {m : AtomicPool.Setup n φ χ ι} {s s₁ s₂ : Config n φ χ ι} {t : AtomicPool.Config n φ χ ι}

theorem Config.userPc_worker (h : s.pool.worker w = .user pc) : s.userPc (.inl w) = some pc := by
  rw [userPc, h]

theorem step_thread [NeZero n] [DecidableEq ι] (ht : thread a = some th) (e : (system m).step s₁ a = some s₂) :
    ∃ sems pool, (s₁.userPc th).elim (some s₁.sems) (stepSems m s₁.sems th) = some sems ∧
      (setup m th).system.step s₁.pool a = some pool ∧
      s₂ = ⟨pool, sems, Function.update s₁.calls th s₁.pool.results.length⟩ := by
  simp only [system, step, ht] at e
  split at e <;> cases e
  case h_1 hs he => exact ⟨_, _, hs, he, rfl⟩

theorem ne_destructor {a : ThreadPool.Action n ι} (h : thread a = some th) : a ≠ .destructor := by
  rintro rfl
  contradiction

theorem step_none [NeZero n] [DecidableEq ι] (ht : thread a = some th) (h : (system m).step s a = none) :
    (s.userPc th).elim (some s.sems) (stepSems m s.sems th) = none ∨ (setup m th).system.step s.pool a = none := by
  refine or_iff_not_and_not.mpr fun ⟨hs, hp⟩ => ?_
  obtain ⟨sems, hs⟩ := Option.ne_none_iff_exists'.mp hs
  obtain ⟨pool, hp⟩ := Option.ne_none_iff_exists'.mp hp
  simp [system, step, ht, hs, hp] at h

theorem client_frame (h : Option.Rel (Code.Refines m th c₁ sem) pc pc')
    (hc : c₂ = c₁ ∨ (pc'.bind AtomicPool.UserPc.waits).isSome) : Option.Rel (Code.Refines m th c₂ sem) pc pc' := by
  cases h
  case none   => exact .none
  case some h => exact .some (h.frame hc)

namespace Refines

variable [DecidableEq ι]

-- A worker or a client moves in both pools, where `s` has the rest of the next state.

theorem setWorker {w : Fin n} {p : AtomicPool.Pool n φ} (h : Refines m s₁ t)
    (hp : Shared (Function.update t.waits (.inl w) pc'.waits) s p)
    (inv : AtomicPool.Inv ({ t with pool := p }.setWorker w pc')) (i : ThreadPool.Inv (s.pool.setWorker w pc))
    (o : ThreadPool.Orderly (s.pool.setWorker w pc)) (hk : ThreadPool.Still s₁.pool s.pool)
    (hs : ∀ o, o ≠ .inl w → s.sems o = s₁.sems o ∨ (t.waits o).isSome)
    (hW : ∀ {o j}, t.Refers j → t.waits o = some j → Function.update t.waits (.inl w) pc'.waits o = some j)
    (hr : Worker.Refines m (Function.update t.waits (.inl w) pc'.waits) (.inl w) (s.sems (.inl w)) pc pc') :
    Refines m { s with pool := s.pool.setWorker w pc } ({ t with pool := p }.setWorker w pc') where
  inv      := inv
  pool     := i
  orderly  := o
  finished := h.finished.trans (by rw [← hk.destructor]; rfl)
  shared   := by
    rw [AtomicPool.waits_setWorker]
    exact ⟨hp.queue, hp.stop_, hp.results, hp.runs, hp.calls, hp.sems⟩
  worker w' := by
    rw [AtomicPool.waits_setWorker]
    by_cases hww : w' = w
    · subst hww
      simpa [ThreadPool.Config.setWorker, AtomicPool.Config.setWorker]
    · have hne : (Sum.inl w' : ThreadPool.Thread n ι) ≠ .inl w := fun h => hww (Sum.inl.inj h)
      simp only [ThreadPool.Config.setWorker, AtomicPool.Config.setWorker, Function.update_of_ne hww, hk.worker]
      exact (h.worker w').frame (fun hsem => hW (.inr ⟨w', hsem⟩)) (hs _ hne)
  client i := hk.client ▸ client_frame (h.client i) (hs _ nofun)

theorem setClient {c : ι} {p : AtomicPool.Pool n φ} (h : Refines m s₁ t)
    (hp : Shared (Function.update t.waits (.inr c) (pc'.bind AtomicPool.UserPc.waits)) s p)
    (inv : AtomicPool.Inv ({ t with pool := p }.setClient c pc')) (i : ThreadPool.Inv (s.pool.setClient c pc))
    (o : ThreadPool.Orderly (s.pool.setClient c pc)) (hk : ThreadPool.Still s₁.pool s.pool)
    (hs : ∀ o, o ≠ .inr c → s.sems o = s₁.sems o)
    (hW : ∀ {o j}, t.Refers j → t.waits o = some j →
      Function.update t.waits (.inr c) (pc'.bind AtomicPool.UserPc.waits) o = some j)
    (hr : Option.Rel (Code.Refines m (.inr c) (s.sems (.inr c)) none) pc pc') :
    Refines m { s with pool := s.pool.setClient c pc } ({ t with pool := p }.setClient c pc') where
  inv      := inv
  pool     := i
  orderly  := o
  finished := h.finished.trans (by rw [← hk.destructor]; rfl)
  shared   := by
    rw [AtomicPool.waits_setClient]
    exact ⟨hp.queue, hp.stop_, hp.results, hp.runs, hp.calls, hp.sems⟩
  worker w := by
    rw [AtomicPool.waits_setClient]
    exact hk.worker ▸ (h.worker w).frame (fun hsem => hW (.inr ⟨w, hsem⟩)) (.inl (hs _ nofun))
  client c' := by
    by_cases hcc : c' = c
    · subst hcc
      simpa [ThreadPool.Config.setClient, AtomicPool.Config.setClient]
    · have hne : (Sum.inr c' : ThreadPool.Thread n ι) ≠ .inr c := fun h => hcc (Sum.inr.inj h)
      simp only [ThreadPool.Config.setClient, AtomicPool.Config.setClient, Function.update_of_ne hcc, hk.client]
      exact client_frame (h.client c') (.inl (hs _ hne))

-- A worker moves that neither begins nor ends to wait.
theorem move {w : Fin n} {p : AtomicPool.Pool n φ} (h : Refines m s₁ t) (hp : Shared t.waits s p)
    (hw' : pc'.waits = (t.worker w).waits)
    (inv : AtomicPool.Inv ({ t with pool := p }.setWorker w pc')) (i : ThreadPool.Inv (s.pool.setWorker w pc))
    (o : ThreadPool.Orderly (s.pool.setWorker w pc)) (hk : ThreadPool.Still s₁.pool s.pool)
    (hs : ∀ o, o ≠ .inl w → s.sems o = s₁.sems o ∨ (t.waits o).isSome)
    (hr : Worker.Refines m t.waits (.inl w) (s.sems (.inl w)) pc pc') :
    Refines m { s with pool := s.pool.setWorker w pc } ({ t with pool := p }.setWorker w pc') := by
  have hW : Function.update t.waits (.inl w) pc'.waits = t.waits := by
    rw [hw']
    exact Function.update_eq_self ..
  exact h.setWorker (by rwa [hW]) inv i o hk hs (fun _ ho => by rwa [hW]) (by rwa [hW])

theorem stay {w : Fin n} (h : Refines m s₁ t) (hp : Shared t.waits s t.pool)
    (i : ThreadPool.Inv (s.pool.setWorker w pc))
    (o : ThreadPool.Orderly (s.pool.setWorker w pc)) (hk : ThreadPool.Still s₁.pool s.pool)
    (hs : ∀ o, o ≠ .inl w → s.sems o = s₁.sems o ∨ (t.waits o).isSome)
    (hr : Worker.Refines m t.waits (.inl w) (s.sems (.inl w)) pc (t.worker w)) :
    Refines m { s with pool := s.pool.setWorker w pc } t := by
  have ht : { t with pool := t.pool }.setWorker w (t.worker w) = t := by
    rw [AtomicPool.Config.setWorker, Function.update_eq_self]
  have := h.move hp rfl (by rw [ht]; exact h.inv) i o hk hs hr
  rwa [ht] at this

-- A worker takes an item out of a queue.
theorem take {w v : Fin n} {item : ThreadPool.WorkItem (Func n φ ι)}
    {q : ThreadsafeQueue (ThreadPool.WorkItem (Func n φ ι))} (h : Refines m s₁ t) (ht : t.worker w = .idle)
    (hq : (s₁.pool.queues_ v).queue_ = item :: q.queue_) (hv : w = v ∨ item.can_steal)
    (i : ThreadPool.Inv ((s₁.pool.setQueue v q).setWorker w (.run item)))
    (o : ThreadPool.Orderly ((s₁.pool.setQueue v q).setWorker w (.run item))) :
    ∃ b t₂, m.system.step t b = some t₂ ∧
      Refines m ⟨(s₁.pool.setQueue v q).setWorker w (.run item), s₁.sems, Function.update s₁.calls (.inl w) x⟩ t₂ := by
  have hrel := h.shared.queue v
  rw [hq] at hrel
  cases hq' : t.pool.queues_ v <;> rw [hq'] at hrel <;> cases hrel
  case cons item' items' hi hrest =>
  have ha : m.system.step t (.take w v) =
      some ({ t with pool := t.pool.setQueue v items' }.setWorker w (.run item')) := by
    have hv : w = v ∨ item'.can_steal := hi.can_steal ▸ hv
    simp [AtomicPool.Setup.system, AtomicPool.Setup.step, ht, hq', hv]
  have hw : t.waits (.inl w) = none := by simp [AtomicPool.Config.waits, ht, AtomicPool.WorkerPc.waits]
  have hp := (h.shared.idle (x := x) hw fun _ _ => rfl).setQueue v hrest
  exact ⟨_, _, ha, h.move hp hw.symm (h.inv.step ha) i o ⟨rfl, rfl, rfl⟩ (fun _ _ => .inl rfl) (.run hi)⟩

-- A worker releases the semaphore of a thread, which waits for it.
theorem release {w : Fin n} {th : ThreadPool.Thread n ι} (h : Refines m s₁ t) (ht : t.worker w = .release j)
    (hth : t.waits th = some j)
    (i : ThreadPool.Inv (s₁.pool.setWorker w .top)) (o : ThreadPool.Orderly (s₁.pool.setWorker w .top)) :
    ∃ b t₂, m.system.step t b = some t₂ ∧
      Refines m ⟨s₁.pool.setWorker w .top, Function.update s₁.sems th ((s₁.sems th).map (· + 1)),
        Function.update s₁.calls (.inl w) x⟩ t₂ := by
  have hw : t.waits (.inl w) = none := by simp [AtomicPool.Config.waits, ht, AtomicPool.WorkerPc.waits]
  have hp := h.shared.release (x := x) hth (fun ho => h.inv.waiting.unique ho hth) hw
  have ha : m.system.step t (.worker w ⟨false, w⟩) =
      some ({ t with pool := t.pool.release j }.setWorker w .idle) := by
    simp only [AtomicPool.Setup.system, AtomicPool.Setup.step, AtomicPool.Setup.stepWorker, ht]
  refine ⟨_, _, ha, h.move hp hw.symm (h.inv.step ha) i o ⟨rfl, rfl, rfl⟩ (fun o _ => ?_) .top⟩
  by_cases ho : o = th
  · exact .inr (by rw [ho, hth]; rfl)
  · exact .inl (Function.update_of_ne ho ..)

variable [NeZero n]

-- A worker takes a step of user code.
theorem runUser {w : Fin n} {pool : ThreadPool.Config n (Func n φ ι) (Code n χ ι) ι}
    {pc₂ : Option (ThreadPool.UserPc n (Func n φ ι) (Code n χ ι))} {pc : ThreadPool.WorkerPc n (Func n φ ι) (Code n χ ι)}
    (h : Refines m s₁ t) (ht : t.worker w = .user a upc₁) (hn : Names t.waits sem a)
    (hu : Code.Refines m (.inl w) (s₁.sems (.inl w)) sem pc₁ upc₁) (hs : stepSems m s₁.sems (.inl w) pc₁ = some sems)
    (e : (setup m (.inl w)).stepUser s₁.pool r pc₁ = some (pool, pc₂)) (hpc : pc = pc₂.elim .top .user)
    (i : ThreadPool.Inv (pool.setWorker w pc)) (o : ThreadPool.Orderly (pool.setWorker w pc)) :
    let s₂ : Config n φ χ ι := ⟨pool.setWorker w pc, sems, Function.update s₁.calls (.inl w) s₁.pool.results.length⟩
    Refines m s₂ t ∨ ∃ b t₂, m.system.step t b = some t₂ ∧ Refines m s₂ t₂ := by
  have hk := (ThreadPool.stepUser_effect e).kept
  have hw : t.waits (.inl w) = upc₁.waits := by simp [AtomicPool.Config.waits, ht, AtomicPool.WorkerPc.waits]
  have hne := fun o ho => Or.inl (b := (t.waits o).isSome) (stepSems_ne (o := o) hu hs ho)
  subst hpc
  obtain ⟨hp, pc, rfl, hr⟩ | ⟨r', p, upc₂, hstep, hp, hr⟩ := stepUser_refines h.inv h.shared hw hu hs e
  · exact .inl (h.stay hp i o ⟨hk.worker, hk.client, hk.destructor⟩ hne (ht ▸ .user hn hr))
  · have ha : m.system.step t (.worker w r') =
        some ({ t with pool := p }.setWorker w (AtomicPool.nextPc a upc₂)) := by
      simp only [AtomicPool.Setup.system, AtomicPool.Setup.step, AtomicPool.Setup.stepWorker, ht, hstep]
      cases upc₂ <;> rfl
    have hW {o j} := waits_of_refers (o := o) (j := j) h.inv (AtomicPool.stepUser_effect hstep) hw
    rw [← AtomicPool.waits_nextPc] at hp hW
    refine .inr ⟨_, _, ha, h.setWorker hp (h.inv.step ha) i o ⟨hk.worker, hk.client, hk.destructor⟩ hne hW ?_⟩
    exact hr.worker (hn.frame fun {o j} hj ho => hW (.inr ⟨w, by rw [ht]; exact hj⟩) ho)

theorem stepWorker {w : Fin n} (h : Refines m s₁ t) (e : (system m).step s₁ (.worker w r) = some s₂) :
    Refines m s₂ t ∨ ∃ b t₂, m.system.step t b = some t₂ ∧ Refines m s₂ t₂ := by
  obtain ⟨sems, pool, hs, hstep, rfl⟩ := step_thread rfl e
  have i := h.pool.step hstep
  have o := h.orderly.step hstep
  have hr := h.worker w
  clear e
  simp only [ThreadPool.Setup.system] at hstep
  have hidle (hw : (t.worker w).waits = none) :
      Shared t.waits ⟨s₁.pool, s₁.sems, Function.update s₁.calls (.inl w) s₁.pool.results.length⟩ t.pool :=
    h.shared.idle hw fun _ _ => rfl
  have hgoto {pc : ThreadPool.WorkerPc n (Func n φ ι) (Code n χ ι)} (ht : t.worker w = .idle)
      (i : ThreadPool.Inv (s₁.pool.setWorker w pc)) (o : ThreadPool.Orderly (s₁.pool.setWorker w pc))
      (hr : Worker.Refines m t.waits (.inl w) (s₁.sems (.inl w)) pc .idle) :
      Refines m ⟨s₁.pool.setWorker w pc, s₁.sems, Function.update s₁.calls (.inl w) s₁.pool.results.length⟩ t :=
    have hw : (t.worker w).waits = none := by rw [ht]; rfl
    h.stay (hidle hw) i o ⟨rfl, rfl, rfl⟩ (fun _ _ => .inl rfl) (ht ▸ hr)
  cases hp : s₁.pool.worker w <;> rw [hp] at hr <;>
    simp only [ThreadPool.Setup.stepWorker, Config.userPc, hp, Option.elim_none, Option.elim_some] at hstep hs
  case top =>
    cases hs; cases hstep
    cases ht : t.worker w <;> rw [ht] at hr <;> cases hr
    refine .inl (hgoto ht i o ?_)
    split
    · exact .steal
    · exact .pop
  case steal j =>
    cases hs
    cases ht : t.worker w <;> rw [ht] at hr <;> cases hr
    split at hstep
    case isTrue =>
      split at hstep <;> cases hstep
      case h_1 hq =>
        obtain ⟨hq, hc⟩ := ThreadsafeQueue.tryPopIf_some hq
        exact .inr (h.take ht hq (.inr (by simpa using hc)) i o)
      case h_2 => exact .inl (hgoto ht i o .steal)
    case isFalse =>
      cases hstep
      exact .inl (hgoto ht i o .pop)
  case pop =>
    cases hs
    cases ht : t.worker w <;> rw [ht] at hr <;> cases hr
    split at hstep <;> cases hstep
    case h_1 hq => exact .inr (h.take ht (ThreadsafeQueue.pop_some hq) (.inl rfl) i o)
    case h_2 hq =>
      obtain ⟨hq, hstop⟩ := ThreadsafeQueue.pop_none hq
      have hrel := h.shared.queue w
      rw [hq] at hrel
      cases hq' : t.pool.queues_ w <;> rw [hq'] at hrel <;> cases hrel
      have ha : m.system.step t (.leave w) = some (t.setWorker w .left) := by
        have hstop : t.pool.stop_ := h.shared.stop_.trans (h.orderly.queue w hstop)
        simp [AtomicPool.Setup.system, AtomicPool.Setup.step, ht, hq', hstop]
      have hw : (t.worker w).waits = none := by rw [ht]; rfl
      have hp := hidle hw
      exact .inr ⟨_, _, ha, h.move hp hw.symm (h.inv.step ha) i o ⟨rfl, rfl, rfl⟩ (fun _ _ => .inl rfl) .left⟩
  case run item =>
    cases hs; cases hstep
    cases ht : t.worker w <;> rw [ht] at hr <;> cases hr
    case run item' hi =>
    have ha : m.system.step t (.worker w ⟨false, 0⟩) =
        some ({ t with pool := t.pool.run w item'.call }.setWorker w (.user item'.sem (.code (m.entry item'.fn)))) := by
      simp only [AtomicPool.Setup.system, AtomicPool.Setup.step, AtomicPool.Setup.stepWorker, ht]
    have hw : (t.worker w).waits = none := by rw [ht]; rfl
    have hp := (hidle hw).run w hi.call
    have hr : Code.Refines m (.inl w) (s₁.sems (.inl w)) item.fn.sem (.code (.user item.fn.sem (m.entry item.fn.f)))
        (.code (m.entry item'.fn)) := hi.fn ▸ .user
    exact .inr ⟨_, _, ha, h.move hp hw.symm (h.inv.step ha) i o ⟨rfl, rfl, rfl⟩ (fun _ _ => .inl rfl) (.user hi.sem hr)⟩
  case user pc₁ =>
    cases ht : t.worker w <;> rw [ht] at hr <;> cases hr
    case user hn hu =>
      split at hstep <;> cases hstep
      case h_1 e => exact h.runUser ht hn hu hs e rfl i o
      case h_2 e => exact h.runUser ht hn hu hs e rfl i o
    case release hth =>
      cases hs; cases hstep
      exact .inr (h.release ht hth i o)
  case left => contradiction

theorem stepClient {c : ι} (h : Refines m s₁ t) (e : (system m).step s₁ (.client c r) = some s₂) :
    Refines m s₂ t ∨ ∃ b t₂, m.system.step t b = some t₂ ∧ Refines m s₂ t₂ := by
  obtain ⟨sems, pool, hs, hstep, rfl⟩ := step_thread rfl e
  have i := h.pool.step hstep
  have o := h.orderly.step hstep
  clear e
  simp only [ThreadPool.Setup.system, ThreadPool.Setup.stepClient] at hstep
  split at hstep <;> try contradiction
  case h_1 pc₁ hc =>
  obtain ⟨⟨pool, pc₂⟩, e, rfl⟩ := Option.map_eq_some_iff.mp hstep
  have hk := (ThreadPool.stepUser_effect e).kept
  have hr := h.client c
  simp only [Config.userPc, hc, Option.elim_some] at hs
  cases ht : t.client c <;> rw [hc, ht] at hr <;> cases hr
  case some.some upc₁ hu =>
  have hw : t.waits (.inr c) = upc₁.waits := by simp [AtomicPool.Config.waits, ht]
  have hne := fun o ho => stepSems_ne (o := o) hu hs ho
  obtain ⟨hp, pc, rfl, hr⟩ | ⟨r', p, upc₂, hstep, hp, hr⟩ := stepUser_refines h.inv h.shared hw hu hs e
  · have hself : { t with pool := t.pool }.setClient c (t.client c) = t := by
      rw [AtomicPool.Config.setClient, Function.update_eq_self]
    have hW : Function.update t.waits (.inr c) ((t.client c).bind AtomicPool.UserPc.waits) = t.waits :=
      Function.update_eq_self ..
    have hp := hW.symm ▸ hp
    have := h.setClient hp (by rw [hself]; exact h.inv) i o ⟨hk.worker, hk.client, hk.destructor⟩ hne
      (fun _ ho => by rwa [hW]) (ht ▸ .some hr)
    exact .inl (hself ▸ this)
  · have ha : m.system.step t (.client c r') = some ({ t with pool := p }.setClient c upc₂) := by
      simp only [AtomicPool.Setup.system, AtomicPool.Setup.step, ht, hstep, Option.map_some]
    have hW {o j} := waits_of_refers (o := o) (j := j) h.inv (AtomicPool.stepUser_effect hstep) hw
    exact .inr ⟨_, _, ha, h.setClient hp (h.inv.step ha) i o ⟨hk.worker, hk.client, hk.destructor⟩ hne hW hr.client⟩

theorem setDestructor {pool : ThreadPool.Config n (Func n φ ι) (Code n χ ι) ι} (h : Refines m s₁ t)
    (inv : AtomicPool.Inv { t with pool.stop_ := b, finished := f })
    (e : ThreadPool.Setup.stepDestructor s₁.pool = some pool)
    (hc : pool.client = s₁.pool.client) (hs : b = pool.stop_) (hf : f = true ↔ pool.destructor = .finished) :
    Refines m { s₁ with pool } { t with pool.stop_ := b, finished := f } where
  inv      := inv
  pool     := h.pool.step (m := setup m (.inl 0)) (a := .destructor) e
  orderly  := h.orderly.stepDestructor e
  finished := hf
  worker w := (ThreadPool.stepDestructor_effect e).worker ▸ h.worker w
  client c := hc ▸ h.client c
  shared := by
    have he := ThreadPool.stepDestructor_effect e
    exact ⟨fun v => he.queue v ▸ h.shared.queue v, hs, he.results ▸ h.shared.results, he.runs ▸ h.shared.runs,
      h.shared.calls, h.shared.sems⟩

theorem stepDestructor {pool : ThreadPool.Config n (Func n φ ι) (Code n χ ι) ι} (h : Refines m s₁ t)
    (e : ThreadPool.Setup.stepDestructor s₁.pool = some pool) :
    Refines m { s₁ with pool } t ∨ ∃ b t₂, m.system.step t b = some t₂ ∧ Refines m { s₁ with pool } t₂ := by
  have hset := fun b f inv => h.setDestructor (b := b) (f := f) inv e
  cases hd : s₁.pool.destructor <;> simp only [ThreadPool.Setup.stepDestructor, hd] at e
  case start =>
    cases e
    have hs : t.pool.stop_ = false := h.shared.stop_.trans (by simpa [hd] using h.orderly.stop_)
    have ha : m.system.step t .stop = some { t with pool.stop_ := true } := by
      simp [AtomicPool.Setup.system, AtomicPool.Setup.step, hs]
    exact .inr ⟨_, _, ha, hset true t.finished (h.inv.step ha) rfl rfl (h.finished.trans (by simp [hd]))⟩
  case stop k =>
    split at e <;> cases e
    all_goals exact .inl (hset _ _ h.inv rfl h.shared.stop_ (h.finished.trans (by simp [hd])))
  case join k =>
    split at e
    case isTrue =>
      split at e <;> cases e
      exact .inl (hset _ _ h.inv rfl h.shared.stop_ (h.finished.trans (by simp [hd])))
    case isFalse hk =>
      cases e
      have hl (w : Fin n) : (t.worker w).hasLeft := by
        rw [(h.worker w).hasLeft]
        exact h.pool.joined w (by simp only [hd, ThreadPool.DestructorPc.joined]; omega)
      have hf : t.finished = false := by simpa [hd] using h.finished
      have ha : m.system.step t .finish = some { t with finished := true } := by
        simp [AtomicPool.Setup.system, AtomicPool.Setup.step, hl, hf]
      exact .inr ⟨_, _, ha, hset t.pool.stop_ true (h.inv.step ha) rfl h.shared.stop_ (by simp)⟩
  case finished => contradiction

omit [DecidableEq ι] in
theorem init : Refines m (SyncSchedule.init m) m.init where
  inv      := .init
  pool     := .init
  orderly  := .init
  shared   := ⟨fun _ => .nil, rfl, rfl, rfl, fun {o _} h => by cases o <;> contradiction,
    fun {o _} h => by cases o <;> contradiction⟩
  worker _ := .top
  client _ := .some .user
  finished := by simp [AtomicPool.Setup.init, SyncSchedule.init, setup, ThreadPool.Setup.init]

theorem step (h : Refines m s₁ t) (e : (system m).step s₁ a = some s₂) :
    Refines m s₂ t ∨ ∃ b t₂, m.system.step t b = some t₂ ∧ Refines m s₂ t₂ := by
  cases a
  case worker     => exact h.stepWorker e
  case client     => exact h.stepClient e
  case destructor =>
    obtain ⟨pool, hd, rfl⟩ := Option.map_eq_some_iff.mp e
    exact h.stepDestructor hd

theorem reachable (h : (system m).Reachable s) : ∃ t, m.system.Reachable t ∧ Refines m s t :=
  System.Simulation.reachable ⟨init, step⟩ h

end Refines

-- Whatever the code of the threads does, whatever it observes, and in every order of the steps, it could do and observe
-- the same on the atomic pool.
theorem simulates_atomic_pool [NeZero n] [DecidableEq ι] (m : AtomicPool.Setup n φ χ ι) :
    System.Simulation (system m) m.system (Refines m) where
  init      := .init
  step h e  := h.step e

-- A client schedules `outer` and waits for it, which does the same with `inner`.
inductive Task
  | outer
  | inner

def syncSetup (nested : Bool) : AtomicPool.Setup 1 Task (Option Task) Unit where
  enable_work_steal_ := false
  entry
    | .outer => if nested then some .inner else none
    | .inner => none
  instr
    | some fn => .syncSchedule fn fun _ => none
    | none    => .ret
  client _ := some .outer

theorem simulates_atomic_pool_single :
    System.Simulation (system (syncSetup true)) (syncSetup true).system (Refines (syncSetup true)) :=
  simulates_atomic_pool (syncSetup true)

end SyncSchedule
end AsyncSimple
