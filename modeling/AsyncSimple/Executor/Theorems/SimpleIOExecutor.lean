import AsyncSimple.Executor.SimpleIOExecutor
import AsyncSimple.Lib.Count

open Transition

namespace AsyncSimple
namespace SimpleIOExecutor

-- The request carries the arguments of its call.
structure Request.Exact (q : Request) : Prop where
  fd     : q.iocb.aio_fildes = q.call.fd
  cmd    : q.iocb.aio_lio_opcode = q.call.cmd
  buffer : q.iocb.buf = q.call.buffer
  length : q.iocb.nbytes = q.call.length
  offset : q.iocb.offset = q.call.offset

theorem Request.exact_iff {q : Request} {i : Nat} (h : q.iocb = q.call.iocb i) :
    q.Exact ↔ q.call.vectored = true ∨ q.call.offset = 0 := by
  constructor
  · intro e
    have ho := e.offset
    rw [h, Call.iocb] at ho
    split at ho
    case isTrue hv => exact .inl hv
    case isFalse   => exact .inr ho.symm
  · intro hc
    constructor <;> rw [h, Call.iocb] <;> split <;> simp_all [submitIOV, submitIO, zero]

-- The answer to the request is its own completion, one of those that the kernel has `finished`, or
-- the error of its submission.
inductive Request.Right (finished : List IoEvent) (i : Nat) (q : Request) : Answer → Prop
  | completion : (0 ≤ q.r) → (e ∈ finished) → (e.data = i) → (e.obj = q.obj) → Right finished i q (.completion e)
  | error      : (q.r < 0) → Right finished i q (.error q.r)

theorem Request.Right.mono {q : Request} {i : Nat} {a : Answer} {l₁ l₂ : List IoEvent} (h : l₁ ⊆ l₂)
    (hr : q.Right l₁ i a) : q.Right l₂ i a := by
  cases hr
  case completion hq he hd ho => exact .completion hq (h he) hd ho
  case error hq               => exact .error hq

-- The events that `loop_thread_` still has to process.
def LoopPc.batch : LoopPc → List IoEvent
  | process es => es
  | _          => []

def LoopPc.weight : LoopPc → Nat
  | .guard     => 2
  | .getevents => 1
  | process es => es.length + 3
  | exited     => 0

namespace Config

variable {s s₁ s₂ : Config} {act : Action}

def answersTo (s : Config) (i : Nat) : List (Nat × Answer) :=
  s.answers.filter (·.1 = i)

-- Each call hands its arguments to the kernel and is answered once.
def Served (s : Config) : Prop :=
  ∀ i (q : Request), s.requests[i]? = some q → q.Exact ∧ ∃ a, s.answersTo i = [(i, a)] ∧ q.Right s.finished i a

-- `Destroy` has been called, and the loop has ended or has nothing to do any more.
def Over (s : Config) : Prop :=
  s.destroy ≠ .notCalled ∧ (s.loop = .exited ∨ s.completed = [] ∧ s.loop.batch = [])

-- In how many places the kernel and the executor hold a task, or have answered it.
def tally (s : Config) (i : Nat) : Nat :=
  s.pending.countP (·.2.data = i) + s.completed.countP (·.data = i) + s.loop.batch.countP (·.data = i) +
  s.answers.countP (·.1 = i)

structure Inv (s : Config) : Prop where
  iocb     : ∀ i (q : Request), s.requests[i]? = some q → q.iocb = q.call.iocb i
  pending  : ∀ p ∈ s.pending, ∃ q, s.requests[p.2.data]? = some q ∧ q.obj = p.1 ∧ 0 ≤ q.r
  finished : ∀ e ∈ s.finished, ∃ q, s.requests[e.data]? = some q ∧ q.obj = e.obj ∧ 0 ≤ q.r
  known    : ∀ e, e ∈ s.completed ∨ e ∈ s.loop.batch → e ∈ s.finished
  answers  : ∀ x ∈ s.answers, ∃ q, s.requests[x.1]? = some q ∧ q.Right s.finished x.1 x.2
  tally    : ∀ i, s.tally i = if i < s.requests.length then 1 else 0
  deleted  : ∀ i ∈ s.deleted, ∃ a, (i, a) ∈ s.answers
  fault    : s.fault = false

theorem getElem?_requests {qs : List Request} {q : Request} {i : Nat} (x : Request) (h : qs[i]? = some q) :
    (qs ++ [x])[i]? = some q :=
  List.getElem?_append_left (List.getElem?_eq_some_iff.mp h).1 ▸ h

theorem getElem?_concat {qs : List Request} {q x : Request} {i : Nat} (h : (qs ++ [x])[i]? = some q) :
    qs[i]? = some q ∨ i = qs.length ∧ q = x := by
  rw [List.getElem?_append] at h
  split at h
  case isTrue  => exact .inl h
  case isFalse =>
    obtain ⟨hi, hx⟩ := List.getElem?_eq_some_iff.mp h
    simp at hi hx
    exact .inr ⟨by omega, hx.symm⟩

namespace Inv

-- A task that is still to be processed has not been deleted.
theorem not_deleted {i : Nat} (h : Inv s) (hn : s.answers.countP (·.1 = i) = 0) : s.deleted.contains i = false := by
  by_contra hd
  obtain ⟨a, ha⟩ := h.deleted i (by simpa using hd)
  simpa using List.countP_eq_zero.mp hn _ ha

theorem init : Inv SimpleIOExecutor.init := by
  constructor <;> simp [SimpleIOExecutor.init, LoopPc.batch, Config.tally]

-- A step that only moves events from the kernel to the batch, if at all.
theorem move {l : LoopPc} {c : List IoEvent} (h : Inv s)
    (hp : (c ++ l.batch).Perm (s.completed ++ s.loop.batch)) : Inv { s with loop := l, completed := c } := by
  refine ⟨h.iocb, h.pending, h.finished, fun e he => h.known e ?_, h.answers, fun i => ?_, h.deleted, h.fault⟩
  · exact List.mem_append.mp (hp.mem_iff.mp (List.mem_append.mpr he))
  · have hc := hp.countP_eq (·.data = i)
    have ht := h.tally i
    simp only [List.countP_append] at hc
    simp only [Config.tally] at ht ⊢
    omega

theorem guard (h : Inv s₁) (hs : s₁.guard = some s₂) : Inv s₂ := by
  simp only [Config.guard] at hs
  split at hs <;> cases hs
  case isTrue hg =>
    refine h.move (c := s₁.completed) (.append_left _ ?_)
    cases s₁.shutdown_ <;> simp [hg, LoopPc.batch]

theorem getevents {n : Option Nat} (h : Inv s₁) (hs : s₁.getevents n = some s₂) : Inv s₂ := by
  simp only [Config.getevents] at hs
  split at hs
  case h_1 hl =>
    cases hs
    exact h.move (c := s₁.completed) (by simp [hl, LoopPc.batch])
  case h_2 n hl =>
    split at hs <;> cases hs
    refine h.move ?_
    simpa [hl, LoopPc.batch] using (List.perm_append_comm).trans (.of_eq (s₁.completed.take_append_drop n))
  case h_3 => contradiction

theorem complete {i res res2 : Nat} (h : Inv s₁) (hs : s₁.complete i res res2 = some s₂) : Inv s₂ := by
  simp only [Config.complete, Option.map_eq_some_iff] at hs
  obtain ⟨p, hp, rfl⟩ := hs
  have hm := List.mem_of_getElem? hp
  refine ⟨h.iocb, fun x hx => h.pending x (List.mem_of_mem_eraseIdx hx), fun e he => ?_, fun e he => ?_,
    fun x hx => ?_, fun i => ?_, h.deleted, h.fault⟩
  · cases List.mem_append.mp he
    case inl he => exact h.finished e he
    case inr he =>
      cases List.mem_singleton.mp he
      exact h.pending p hm
  · simp only [List.mem_append, List.mem_singleton] at he ⊢
    exact or_right_comm.mp he |>.imp_left (h.known e)
  · obtain ⟨q, hq, hr⟩ := h.answers x hx
    exact ⟨q, hq, hr.mono (List.subset_append_left _ _)⟩
  · have hc := Count.countP_eraseIdx (p := (·.2.data = i)) hp
    have ht := h.tally i
    simp only [Config.tally, List.countP_append, List.countP_singleton] at ht ⊢
    simp only [decide_eq_true_eq] at hc ⊢
    omega

theorem processNext (h : Inv s₁) (hs : s₁.processNext = some s₂) : Inv s₂ := by
  simp only [Config.processNext] at hs
  split at hs
  case h_1 hl =>
    cases hs
    exact h.move (c := s₁.completed) (by simp [hl, LoopPc.batch])
  case h_2 e es hl =>
    cases hs
    have hk := h.known e (.inr (by simp [hl, LoopPc.batch]))
    obtain ⟨q, hq, ho, hr⟩ := h.finished e hk
    have ht (i : Nat) := h.tally i
    simp only [Config.tally, hl, LoopPc.batch, List.countP_cons, decide_eq_true_eq] at ht
    refine ⟨h.iocb, h.pending, h.finished, fun x hx => h.known x ?_, fun x hx => ?_, fun i => ?_, fun i hi => ?_, ?_⟩
    · exact hx.imp_right fun hx => by simp [hl, LoopPc.batch, show x ∈ es from hx]
    · cases List.mem_append.mp hx
      case inl hx => exact h.answers x hx
      case inr hx =>
        cases List.mem_singleton.mp hx
        exact ⟨q, hq, .completion hr hk rfl ho.symm⟩
    · refine .trans ?_ (ht i)
      simp only [Config.tally, process, LoopPc.batch, List.countP_append, List.countP_singleton, decide_eq_true_eq]
      omega
    · cases List.mem_cons.mp hi
      case inl hi => exact hi ▸ ⟨_, List.mem_append_right _ (List.mem_singleton_self _)⟩
      case inr hi =>
        obtain ⟨a, ha⟩ := h.deleted i hi
        exact ⟨a, List.mem_append_left _ ha⟩
    · have := ht e.data
      rw [if_pos rfl] at this
      simp only [process, h.fault, Bool.false_or]
      refine h.not_deleted ?_
      split at this <;> omega
  case h_3 => contradiction

theorem submit {call : Call} {obj : Nat} {r : Int} (h : Inv s) : Inv (s.submit call obj r) := by
  have hd : (call.iocb s.requests.length).data = s.requests.length := by
    rw [Call.iocb]
    split <;> rfl
  let q : Request := { call := call, obj := obj, iocb := call.iocb s.requests.length, r := r }
  have hq : (s.requests ++ [q])[s.requests.length]? = some q := by simp
  have iocb : ∀ i (x : Request), (s.requests ++ [q])[i]? = some x → x.iocb = x.call.iocb i := by
    intro i x hx
    cases getElem?_concat hx
    case inl hx => exact h.iocb i x hx
    case inr hx =>
      obtain ⟨rfl, rfl⟩ := hx
      rfl
  have pending : ∀ p ∈ s.pending, ∃ q', (s.requests ++ [q])[p.2.data]? = some q' ∧ q'.obj = p.1 ∧ 0 ≤ q'.r := by
    intro p hp
    obtain ⟨x, hx, hp⟩ := h.pending p hp
    exact ⟨x, getElem?_requests _ hx, hp⟩
  have finished : ∀ e ∈ s.finished, ∃ q', (s.requests ++ [q])[e.data]? = some q' ∧ q'.obj = e.obj ∧ 0 ≤ q'.r := by
    intro e he
    obtain ⟨x, hx, he⟩ := h.finished e he
    exact ⟨x, getElem?_requests _ hx, he⟩
  have answers : ∀ x ∈ s.answers, ∃ q', (s.requests ++ [q])[x.1]? = some q' ∧ q'.Right s.finished x.1 x.2 := by
    intro x hx
    obtain ⟨q', hq', hx⟩ := h.answers x hx
    exact ⟨q', getElem?_requests _ hq', hx⟩
  -- The new task is held in one place, and the others are where they have been.
  have tally (i : Nat) {n : Nat} (hn : n = s.tally i + if s.requests.length = i then 1 else 0) :
      n = if i < (s.requests ++ [q]).length then 1 else 0 := by
    rw [hn, h.tally i, List.length_append, List.length_singleton]
    split <;> split <;> split <;> omega
  simp only [Config.submit, hd]
  split
  case isTrue hr =>
    refine ⟨iocb, pending, finished, h.known, fun x hx => ?_, fun i => tally i ?_, fun i hi => ?_, ?_⟩
    · cases List.mem_append.mp hx
      case inl hx => exact answers x hx
      case inr hx =>
        cases List.mem_singleton.mp hx
        exact ⟨q, hq, .error hr⟩
    · simp only [Config.tally, process, List.countP_append, List.countP_singleton, decide_eq_true_eq]
      omega
    · cases List.mem_cons.mp hi
      case inl hi => exact hi ▸ ⟨_, List.mem_append_right _ (List.mem_singleton_self _)⟩
      case inr hi =>
        obtain ⟨a, ha⟩ := h.deleted i hi
        exact ⟨a, List.mem_append_left _ ha⟩
    · have := h.tally s.requests.length
      rw [if_neg (Nat.lt_irrefl _), Config.tally] at this
      simp only [process, h.fault, Bool.false_or]
      exact h.not_deleted (by omega)
  case isFalse hr =>
    refine ⟨iocb, fun p hp => ?_, finished, h.known, answers, fun i => tally i ?_, h.deleted, h.fault⟩
    · cases List.mem_append.mp hp
      case inl hp => exact pending p hp
      case inr hp =>
        cases List.mem_singleton.mp hp
        exact ⟨q, hd.symm ▸ hq, rfl, Int.not_lt.mp hr⟩
    · simp only [Config.tally, List.countP_append, List.countP_singleton, decide_eq_true_eq, hd]
      omega

theorem step (h : Inv s₁) (hs : s₁.step act = some s₂) : Inv s₂ := by
  cases act <;> simp only [Config.step] at hs
  case submit    => split at hs <;> cases hs; exact h.submit
  case complete  => exact h.complete hs
  case guard     => exact h.guard hs
  case getevents => exact h.getevents hs
  case process   => exact h.processNext hs
  case destroy | join =>
    split at hs <;> cases hs
    exact ⟨h.iocb, h.pending, h.finished, h.known, h.answers, h.tally, h.deleted, h.fault⟩

theorem reachable (hr : system.Reachable s) : Inv s :=
  hr.invariant init step

end Inv
-- What holds of the threads, when `early` says whether the loop has been left.
structure LoopInv (s : Config) (early : Bool) : Prop where
  exited   : s.loop = .exited ↔ early = true
  inside   : s.shutdown_ = false → s.loop = .guard ∨ s.loop = .exited
  errors   : early = true ∨ s.shutdown_ = false → ∀ x ∈ s.answers, ∃ r, x.2 = .error r
  shutdown : s.destroy ≠ .notCalled ↔ s.shutdown_ = true
  pending  : s.destroy ≠ .notCalled → s.pending = []
  returned : s.destroy = .returned → s.loop = .exited

end Config

-- The system with a record of whether `loop_thread_` has checked its guard before `Destroy` has set
-- `shutdown_`.
def recorded : System (Config × Bool) Action :=
  system.record false fun s act _ early => early || (act == .guard && !s.shutdown_)

namespace Config
namespace LoopInv

variable {early : Bool}

-- Within the loop, only the loop and the answers change.
theorem within {l : LoopPc} {as : List (Nat × Answer)} {es : List IoEvent} {ds : List Nat} {fault : Bool}
    (h : LoopInv s early) (hg : s.loop ≠ .guard) (he : s.loop ≠ .exited) (hl : l ≠ .exited) :
    LoopInv { s with loop := l, answers := as, completed := es, deleted := ds, fault := fault } early := by
  have hearly : early = false := Bool.eq_false_iff.mpr fun hn => he (h.exited.mpr hn)
  have hsd : s.shutdown_ = true := by
    by_contra hn
    exact (h.inside (Bool.eq_false_iff.mpr hn)).elim hg he
  exact ⟨by simp [hl, hearly], by simp [hsd], by simp [hsd, hearly], h.shutdown, h.pending,
    fun hr => absurd (h.returned hr) he⟩

theorem step (h : LoopInv s₁ early) (hs : s₁.step act = some s₂) :
    LoopInv s₂ (early || (act == .guard && !s₁.shutdown_)) := by
  cases act <;> simp only [Config.step] at hs
  case submit call obj r =>
    split at hs <;> cases hs
    case isTrue hd =>
      have hsd : s₁.shutdown_ = false := by simpa [hd] using h.shutdown
      rw [Config.submit]
      split
      case isTrue  =>
        refine ⟨by simpa [process] using h.exited, h.inside, fun _ x hx => ?_, h.shutdown, h.pending, h.returned⟩
        cases List.mem_append.mp hx
        case inl hx => exact h.errors (.inr hsd) x hx
        case inr hx => exact ⟨r, by rw [List.mem_singleton.mp hx]⟩
      case isFalse =>
        exact ⟨by simpa using h.exited, h.inside, by simpa using h.errors, h.shutdown, fun hn => absurd hd hn, h.returned⟩
  case complete =>
    simp only [Config.complete, Option.map_eq_some_iff] at hs
    obtain ⟨p, hp, rfl⟩ := hs
    refine ⟨by simpa using h.exited, h.inside, by simpa using h.errors, h.shutdown, fun hn => ?_, h.returned⟩
    simp [h.pending hn] at hp
  case guard =>
    simp only [Config.guard] at hs
    split at hs <;> cases hs
    case isTrue hg =>
      have he : early = false := by simpa [hg] using h.exited
      cases hsd : s₁.shutdown_
      case false => exact ⟨by simp, by simp, fun _ => h.errors (.inr hsd), by simpa [hsd] using h.shutdown, h.pending, by simp⟩
      case true  =>
        refine ⟨by simp [he], by simp, by simp [he], by simpa [hsd] using h.shutdown, h.pending, fun hr => ?_⟩
        simp [h.returned hr] at hg
  case getevents n =>
    simp only [Config.getevents] at hs
    rw [show (early || (Action.getevents n == .guard && !s₁.shutdown_)) = early by simp]
    split at hs
    case h_1 hl => cases hs; exact h.within (by simp [hl]) (by simp [hl]) (by simp)
    case h_2 hl => split at hs <;> cases hs; exact h.within (by simp [hl]) (by simp [hl]) (by simp)
    case h_3    => contradiction
  case process =>
    simp only [Config.processNext] at hs
    rw [show (early || (Action.process == .guard && !s₁.shutdown_)) = early by simp]
    split at hs
    case h_1 hl => cases hs; exact h.within (by simp [hl]) (by simp [hl]) (by simp)
    case h_2 hl => cases hs; exact h.within (by simp [hl]) (by simp [hl]) (by simp)
    case h_3    => contradiction
  case destroy =>
    split at hs <;> cases hs
    case isTrue hd =>
      refine ⟨by simpa using h.exited, by simp, fun he => ?_, by simp, fun _ => hd.2, by simp⟩
      exact h.errors (.inl (by simpa using he))
  case join =>
    split at hs <;> cases hs
    case isTrue hd =>
      exact ⟨by simpa using h.exited, h.inside, by simpa using h.errors, by simpa [hd.1] using h.shutdown,
        fun _ => h.pending (by simp [hd.1]), fun _ => hd.2⟩

theorem init : LoopInv SimpleIOExecutor.init false := by
  constructor <;> simp [SimpleIOExecutor.init]

theorem reachable (hr : recorded.Reachable (s, early)) : LoopInv s early := by
  refine hr.invariant (S := recorded) (I := fun s => LoopInv s.1 s.2) init fun h hs => ?_
  obtain ⟨hs, e⟩ := System.record_step.mp hs
  exact e ▸ h.step hs

end LoopInv

-- When all is over, then each request has been answered, unless the loop has been left early.
theorem Inv.answered {i : Nat} {q : Request} (h : Inv s) (hp : s.pending = []) (hc : s.completed = [])
    (hb : s.loop.batch = []) (hq : s.requests[i]? = some q) :
    ∃ a, s.answersTo i = [(i, a)] ∧ q.Right s.finished i a := by
  have ht := h.tally i
  rw [if_pos (List.getElem?_eq_some_iff.mp hq).1, Config.tally, hp, hc, hb] at ht
  simp only [List.countP_nil, Nat.zero_add] at ht
  rw [List.countP_eq_length_filter] at ht
  obtain ⟨⟨j, a⟩, hx⟩ := List.length_eq_one_iff.mp ht
  have hm : (j, a) ∈ s.answers.filter (·.1 = i) := by simp [hx]
  obtain ⟨ha, rfl⟩ : (j, a) ∈ s.answers ∧ j = i := by simpa using hm
  obtain ⟨q', hq', hr⟩ := h.answers _ ha
  cases hq.symm.trans hq'
  exact ⟨a, hx, hr⟩

theorem served_iff {early : Bool} (hr : recorded.Reachable (s, early)) (ho : s.Over) :
    s.Served ↔ (∀ q ∈ s.requests, q.call.vectored = true ∨ q.call.offset = 0) ∧
      (early = false ∨ ∀ q ∈ s.requests, q.r < 0) := by
  have h := Inv.reachable hr.of_record
  have l := LoopInv.reachable hr
  have hp := l.pending ho.1
  constructor
  · intro hs
    refine ⟨fun q hq => ?_, ?_⟩
    · obtain ⟨i, hi⟩ := List.mem_iff_getElem?.mp hq
      exact (Request.exact_iff (h.iocb i q hi)).mp (hs i q hi).1
    · cases he : early
      case false => exact .inl rfl
      case true  =>
        -- The loop has been left early, so that the answer is an error.
        refine .inr fun q hq => ?_
        obtain ⟨i, hi⟩ := List.mem_iff_getElem?.mp hq
        obtain ⟨-, a, ha, hr⟩ := hs i q hi
        have hm : (i, a) ∈ s.answersTo i := by simp [ha]
        obtain ⟨r, rfl⟩ := l.errors (.inl he) _ (List.mem_filter.mp hm).1
        cases hr
        assumption
  · rintro ⟨ho', he⟩ i q hq
    refine ⟨(Request.exact_iff (h.iocb i q hq)).mpr (ho' q (List.mem_of_getElem? hq)), ?_⟩
    have hc : s.completed = [] ∧ s.loop.batch = [] := by
      cases he
      case inl he =>
        have hn : s.loop ≠ .exited := fun hl => by simpa [he] using l.exited.mp hl
        exact ho.2.resolve_left hn
      case inr hr =>
        -- Nothing has been accepted, so that nothing has been completed.
        have hf : ∀ e, e ∉ s.finished := by
          intro e he
          obtain ⟨q, hq, -, hn⟩ := h.finished e he
          exact absurd (hr q (List.mem_of_getElem? hq)) (Int.not_lt.mpr hn)
        exact ⟨List.eq_nil_iff_forall_not_mem.mpr fun e he => hf e (h.known e (.inl he)),
          List.eq_nil_iff_forall_not_mem.mpr fun e he => hf e (h.known e (.inr he))⟩
    exact h.answered hp hc.1 hc.2 hq

-- How much there is to do for the loop and `Destroy`.
def weight (s : Config) : Nat :=
  4 * s.completed.length + s.loop.weight + if s.destroy = .join then 1 else 0

end Config

-- A step in which `io_getevents`, if it is called, returns some events.
def Action.Polls (act : Action) : Prop :=
  act ≠ .getevents none ∧ act ≠ .getevents (some 0)

instance (act : Action) : Decidable act.Polls :=
  inferInstanceAs (Decidable (_ ∧ _))

namespace Config

variable {s s₁ s₂ : Config} {act : Action}

theorem weight_lt {early : Bool} (l : LoopInv s₁ early) (hd : s₁.destroy ≠ .notCalled) (hp : act.Polls)
    (hs : s₁.step act = some s₂) : s₂.destroy ≠ .notCalled ∧ s₂.weight < s₁.weight := by
  cases act <;> simp only [Config.step, hd, false_and, if_false, reduceCtorEq] at hs
  case complete =>
    simp [Config.complete, l.pending hd] at hs
  case guard =>
    simp only [Config.guard] at hs
    split at hs <;> cases hs
    case isTrue hg =>
      refine ⟨hd, ?_⟩
      cases hsd : s₁.shutdown_ <;> simp [weight, hg, LoopPc.weight]
  case getevents n =>
    simp only [Config.getevents] at hs
    split at hs
    case h_1    => exact absurd rfl hp.1
    case h_2 n hl =>
      split at hs <;> cases hs
      case isTrue hn =>
        have hz : n ≠ 0 := fun hz => hp.2 (hz ▸ rfl)
        refine ⟨hd, ?_⟩
        simp only [weight, hl, LoopPc.weight, List.length_drop, List.length_take]
        omega
    case h_3 => contradiction
  case process =>
    simp only [Config.processNext] at hs
    split at hs
    case h_1 hl => cases hs; exact ⟨hd, by simp [weight, hl, LoopPc.weight]⟩
    case h_2 hl => cases hs; exact ⟨hd, by simp [weight, hl, LoopPc.weight, process]⟩
    case h_3    => contradiction
  case join =>
    split at hs <;> cases hs
    case isTrue hj => exact ⟨by simp, by simp [weight, hj.1]⟩

theorem over_of_quiescent (hd : s.destroy ≠ .notCalled)
    (hq : ∀ act : Action, act.Polls → s.step act = none) : s.Over := by
  refine ⟨hd, ?_⟩
  cases hl : s.loop
  case guard     => simpa [Config.step, Config.guard, hl] using hq .guard (by decide)
  case exited    => exact .inl rfl
  case process es =>
    have := hq .process (by decide)
    cases es <;> simp [Config.step, Config.processNext, hl] at this
  case getevents =>
    refine .inr ⟨?_, rfl⟩
    have := hq (.getevents (some 1)) (by decide)
    cases hc : s.completed
    case nil  => rfl
    case cons => simp [Config.step, Config.getevents, hl, hc, kMaxAio] at this

-- The runs from a state in which `io_getevents` does not come back empty-handed.
def polling (x : Config × Bool) : System (Config × Bool) Action :=
  (recorded.startingAt x).restrict fun _ act => act.Polls

theorem polling_step {x y z : Config × Bool} (h : (polling x).step y act = some z) :
    act.Polls ∧ recorded.step y act = some z ∧ y.1.step act = some z.1 := by
  obtain ⟨hp, h⟩ := System.restrict_step.mp h
  replace h : recorded.step y act = some z := h
  obtain ⟨y, e⟩ := y
  obtain ⟨z, e'⟩ := z
  exact ⟨hp, h, (System.record_step.mp h).1⟩

theorem polling_reachable {x y : Config × Bool} (hr : recorded.Reachable x) (hd : x.1.destroy ≠ .notCalled)
    (h : (polling x).Reachable y) : recorded.Reachable y ∧ y.1.destroy ≠ .notCalled := by
  induction h
  case init => exact ⟨hr, hd⟩
  case step e ih =>
    obtain ⟨hp, e, hs⟩ := polling_step e
    exact ⟨ih.1.step e, (weight_lt (.reachable ih.1) ih.2 hp hs).1⟩

-- Once `Destroy` has been called, all is over at the end of each such run. Then, each call has handed
-- its arguments to the kernel and has been answered once if and only if its offset is not lost and the
-- loop has not been left early.
theorem requests_served {early : Bool} (hr : recorded.Reachable (s, early)) :
    s.fault = false ∧
    (s.Over → (s.Served ↔ (∀ q ∈ s.requests, q.call.vectored = true ∨ q.call.offset = 0) ∧
      (early = false ∨ ∀ q ∈ s.requests, q.r < 0))) ∧
    (s.destroy ≠ .notCalled → (polling (s, early)).Terminates ∧
      ∀ x, (polling (s, early)).Reachable x → (polling (s, early)).Quiescent x → x.1.Over) := by
  refine ⟨(Inv.reachable hr.of_record).fault, served_iff hr, fun hd => ⟨?_, fun x hx hq => ?_⟩⟩
  · refine System.terminates (μ := fun x => x.1.weight) Nat.lt_wfRel.wf fun hx e => ?_
    obtain ⟨hp, -, hs⟩ := polling_step e
    obtain ⟨hx, hd⟩ := polling_reachable hr hd hx
    exact (weight_lt (.reachable hx) hd hp hs).2
  · obtain ⟨hx, hd⟩ := polling_reachable hr hd hx
    refine over_of_quiescent hd fun act hp => ?_
    have := hq act
    simp only [polling, System.restrict, System.startingAt, recorded, System.record, hp, if_true,
      Option.map_eq_none_iff] at this
    exact this

-- A thread that has entered the loop does not leave it, so that `Destroy` does not return.
theorem destroy_blocked (hr : recorded.Reachable (s, false)) : s.destroy ≠ .returned := by
  intro hd
  have l := LoopInv.reachable hr
  simpa using l.exited.mp (l.returned hd)

def readv : Call where
  vectored := true
  fd       := 3
  cmd      := .IOCB_CMD_PREADV
  buffer   := 4096
  length   := 2
  offset   := 512

def read (offset : Int) : Call where
  vectored := false
  fd       := 3
  cmd      := .IOCB_CMD_PREAD
  buffer   := 8192
  length   := 16
  offset   := offset

-- One of two requests is refused, and `Destroy` is called before the thread runs.
def servedRun : List Action :=
  [.submit readv 64 1, .submit (read 0) 64 (-11), .complete 0 16 0, .destroy, .guard, .getevents (some 1),
    .process, .process]

theorem requests_served_refused : ∃ s : Config, s.requests.length = 2 ∧ s.Served := by
  obtain ⟨⟨s, early⟩, hr, hs⟩ := recorded.exists_reachable servedRun
    (p := fun x => x.1.requests.length = 2 ∧ x.1.destroy = .join ∧ x.1.loop = .guard ∧ x.1.completed = [] ∧
      (∀ q ∈ x.1.requests, q.call.vectored = true ∨ q.call.offset = 0) ∧ x.2 = false) (by decide)
  obtain ⟨hn, hd, hl, hc, ho, he⟩ := decide_eq_true_eq.mp hs
  have hover : s.Over := by
    refine ⟨fun hn => ?_, .inr ⟨hc, ?_⟩⟩
    · cases hd.symm.trans hn
    · rw [show s.loop = .guard from hl, LoopPc.batch]
      nofun
  exact ⟨s, hn, ((requests_served hr).2.1 hover).mpr ⟨ho, .inl he⟩⟩

-- The thread checks its guard before `Destroy` is called, so that a request is not answered. The offset
-- of another one is lost.
theorem requests_not_served :
    (∃ s q, system.run system.init [.submit readv 64 1, .guard, .complete 0 16 0, .destroy, .join] = some s ∧
      s.Over ∧ s.requests = [q] ∧ 0 ≤ q.r ∧ s.answersTo 0 = []) ∧
    (∃ s q, system.run system.init [.submit (read 512) 64 1] = some s ∧
      s.requests = [q] ∧ q.call.offset = 512 ∧ q.iocb.offset = 0 ∧ ¬ q.Exact) := by
  refine ⟨⟨_, _, rfl, ⟨by decide, .inl rfl⟩, rfl, by decide, rfl⟩, ⟨_, _, rfl, rfl, rfl, rfl, fun h => ?_⟩⟩
  have := h.offset
  contradiction

end Config
end SimpleIOExecutor
end AsyncSimple
