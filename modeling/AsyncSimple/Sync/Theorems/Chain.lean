import AsyncSimple.Lib.Count
import AsyncSimple.Sync.Chain
import AsyncSimple.Sync.Theorems.FutureState

open Transition

namespace AsyncSimple

namespace Chain

variable {n : Nat} {ε α ξ : Type}

namespace Setup

-- The outcome after the first `p` callbacks, and the callbacks that are invoked up to there.

def expected (m : Setup n ε α ξ) (p : Nat) : Except (Exception ε) α :=
  evalChain m.unit ((List.ofFn m.callbacks).take p) m.initial.outcome

def expectedLog (m : Setup n ε α ξ) (p : Nat) : List Nat :=
  evalLog m.unit 0 ((List.ofFn m.callbacks).take p) m.initial.outcome

def value (m : Setup n ε α ξ) (p : Fin (n + 1)) : Try ε α :=
  .makeTryCall (m.expected p)

theorem take_succ (m : Setup n ε α ξ) (j : Fin n) :
    (List.ofFn m.callbacks).take (j + 1) = (List.ofFn m.callbacks).take j ++ [m.callbacks j] := by
  rw [List.take_succ_eq_append_getElem (by simp)]
  simp

theorem expected_succ (m : Setup n ε α ξ) (j : Fin n) :
    m.expected (j + 1) = (m.callbacks j).eval m.unit (m.expected j) := by
  rw [expected, m.take_succ, evalChain_append]
  rfl

theorem expectedLog_succ (m : Setup n ε α ξ) (j : Fin n) :
    m.expectedLog (j + 1) =
      if (m.callbacks j).invokes (m.value j.castSucc) then m.expectedLog j ++ [j.val] else m.expectedLog j := by
  rw [expectedLog, m.take_succ, evalLog_append]
  simp only [value, Callback.invokes_makeTryCall, Fin.val_castSucc, List.length_take, List.length_ofFn,
    Nat.min_eq_left j.isLt.le, evalLog, Nat.zero_add, List.append_nil]
  split <;> simp_all [expectedLog, expected]

-- What the function given to `ThenImpl` makes of the result before it.
theorem value_succ (m : Setup n ε α ξ) (j : Fin n) :
    m.value j.succ = .makeTryCall ((m.callbacks j).func.eval m.unit (m.value j.castSucc)) := by
  simp only [value, Fin.val_succ, Fin.val_castSucc, m.expected_succ, Callback.eval_func]

end Setup

-- Whether a state is at rest, or done and on the way to its continuation.

def Pc.Quiet : Pc n ε α → Prop
  | .idle | .finished => True
  | _                 => False

def Pc.Dispatching (executor : Option ξ) : Pc n ε α → Prop
  | .schedule _ | .queued | .call => True
  | .submit                       => executor.isSome
  | _                             => False

-- A shared state, with its promise and the step at it, that has the result `t` or will have it.
inductive Carry (t : Try ε α) : Option (Fate ε α) → FutureState ε α (Cont n) ξ Empty → Pc n ε α → Prop
  | pending : (t = .makeTryCall fate.outcome) → (fs.hasResult = false) → (Pc.Quiet pc) →
              Carry t (some fate) fs pc
  | ready   : (fs.hasResult = true) → (fs.try_value_ = t) → (fs.hasContinuation = false) → (Pc.Quiet pc) →
              Carry t none fs pc
  | done    : (fs.hasResult = true) → (fs.try_value_ = t) → (fs.hasContinuation = true) →
              (Pc.Dispatching fs.executor_ pc) → Carry t none fs pc

namespace Config

def CarryAt (s : Config n ε α ξ) (x : Slot n) (t : Try ε α) : Prop :=
  Carry t (s.promise x) (s.state x) (s.pc x)

def Inert (s : Config n ε α ξ) (x : Slot n) : Prop :=
  s.promise x = none ∧ (s.pc x).Quiet

end Config

-- Where the next result of a chain of shared states comes from, if `p` is the number of callbacks that
-- have been called: from the future of this number, or from what callback number `p - 1` has led to.
-- There are no steps to be taken anywhere else.
inductive Phase (m : Setup n ε α ξ) (s : Config n ε α ξ) : Fin (n + 1) → Prop
  | future :
    (s.CarryAt (.future p) (m.value p)) → (∀ y, y ≠ .future p → s.Inert y) → Phase m s p
  | settle :
    ((s.state (.future j.succ)).hasResult = false) → (s.pc x = .setResult j (m.value j.succ)) →
    (s.promise x = none) → (x ≠ .future j.succ) → (∀ y, y ≠ x → s.Inert y) → Phase m s j.succ
  | attach :
    ((s.state (.future j.succ)).hasResult = false) → (s.pc (.future j.castSucc) = .setContinuation j) →
    (s.promise (.future j.castSucc) = none) → (s.CarryAt (.returned j) (m.value j.succ)) →
    ((s.state (.returned j)).hasContinuation = false) →
    (∀ y, y ≠ .future j.castSucc → y ≠ .returned j → s.Inert y) → Phase m s j.succ
  | relay :
    ((s.state (.future j.succ)).hasResult = false) → (s.CarryAt (.returned j) (m.value j.succ)) →
    ((s.state (.returned j)).hasContinuation = true) →
    ((s.state (.returned j)).continuation_ = some (.relay j)) →
    (∀ y, y ≠ .returned j → s.Inert y) → Phase m s j.succ

-- The last future has a local state, and there has been no shared state before it.
structure Local (m : Setup n ε α ξ) (s : Config n ε α ξ) (l : LocalState ε α ξ) : Prop where
  value  : l.try_value_ = m.value s.attached
  called : s.called = s.attached
  inert  : ∀ y, s.Inert y
  fresh  : ∀ y, (s.state y).hasResult = false ∧ (s.state y).hasContinuation = false

structure Shared (m : Setup n ε α ξ) (s : Config n ε α ξ) : Prop where
  phase   : Phase m s s.called
  le      : s.called ≤ s.attached
  result  : ∀ p, s.called < p → (s.state (.future p)).hasResult = false
  waiting : ∀ j : Fin n, s.called ≤ j.castSucc → j.castSucc < s.attached →
            (s.state (.future j.castSucc)).hasContinuation = true ∧
            (s.state (.future j.castSucc)).continuation_ = some (.thenImpl j)
  free    : ∀ p, s.attached ≤ p → (s.state (.future p)).hasContinuation = false

structure Inv (m : Setup n ε α ξ) (s : Config n ε α ξ) : Prop where
  log    : s.log = m.expectedLog s.called
  locals : ∀ l, s.localState = some l → Local m s l
  shared : s.localState = none → Shared m s

variable {m : Setup n ε α ξ} {s s₁ s₂ : Config n ε α ξ} {x : Slot n} {t : Try ε α}

namespace Config

theorem setResult_eq (h : (s.state x).hasResult = false) :
    s.setResult x t =
      some ((s.setState x ((s.state x).withResult t)).goto x
        (if (s.state x).hasContinuation then .schedule false else s.pc x)) := by
  rw [setResult, FutureState.setResult_withResult h]
  cases (s.state x).hasContinuation <;> simp [goto, setState]

theorem setContinuation_eq (h : (s.state x).hasContinuation = false) :
    s.setContinuation x c =
      some ((s.setState x ((s.state x).withContinuation c)).goto x
        (if (s.state x).hasResult then .schedule true else s.pc x)) := by
  rw [setContinuation, FutureState.setContinuation_withContinuation h]
  cases (s.state x).hasResult <;> simp [goto, setState]

end Config

-- A shared state without a result gets it.
theorem Carry.result {fs : FutureState ε α (Cont n) ξ Empty} (hq : Pc.Quiet pc) :
    Carry t none (fs.withResult t) (if fs.hasContinuation then .schedule false else pc) := by
  cases h : fs.hasContinuation
  case false => exact .ready (by simp) rfl (by simp [h]) hq
  case true  => exact .done (by simp) rfl (by simp [h]) trivial

-- It gets a continuation.
theorem Carry.continuation {fs : FutureState ε α (Cont n) ξ Empty} (h : Carry t p fs pc)
    (hc : fs.hasContinuation = false) :
    Carry t p (fs.withContinuation c) (if fs.hasResult then .schedule true else pc) := by
  cases h
  case pending ht hr hq => exact .pending ht (by simp [hr]) (by simpa [hr] using hq)
  case ready hr ht _ hq => exact .done (by simp [hr]) ht (by simp) (by simp [hr, Pc.Dispatching])
  case done h _         => simp [hc] at h

-- It is made outside of the chain.
theorem share_carry (fate : Fate ε α) (early : Bool) (hq : (s.pc x).Quiet) (e : Option ξ) :
    (s.share x fate early e).CarryAt x (.makeTryCall fate.outcome) := by
  cases early <;> simp only [Config.CarryAt, Config.share, Bool.false_eq_true, if_false, if_true,
    Function.update_self, Config.setState]
  case false => exact .pending rfl (by simp) hq
  case true  => exact .ready (by simp [FutureState.hasResult]) rfl (by simp [FutureState.hasContinuation]) hq

theorem share_promise_ne (h : y ≠ x) : (s.share x fate early e).promise y = s.promise y := by
  cases early <;> simp [Config.share, h]

theorem share_state_ne (h : y ≠ x) : (s.share x fate early e).state y = s.state y := by
  cases early <;> simp [Config.share, Config.setState, h]

@[simp]
theorem share_hasContinuation : ((s.share x fate early e).state x).hasContinuation = false := by
  cases early
  case false => simp [Config.share, Config.setState]
  case true  => simp [Config.share, Config.setState, FutureState.hasContinuation]

@[simp] theorem share_pc : (s.share x fate early e).pc = s.pc := by cases early <;> rfl
@[simp] theorem share_log : (s.share x fate early e).log = s.log := by cases early <;> rfl
@[simp] theorem share_called : (s.share x fate early e).called = s.called := by cases early <;> rfl
@[simp] theorem share_attached : (s.share x fate early e).attached = s.attached := by cases early <;> rfl
@[simp] theorem share_localState : (s.share x fate early e).localState = s.localState := by cases early <;> rfl

namespace Inv

theorem of_local (hl : s.localState = some l) (hg : s.log = m.expectedLog s.called) (h : Local m s l) :
    Inv m s where
  log       := hg
  locals l' h' := Option.some.inj (hl ▸ h') ▸ h
  shared h' := by simp [hl] at h'

theorem of_shared (hl : s.localState = none) (hg : s.log = m.expectedLog s.called) (h : Shared m s) :
    Inv m s where
  log      := hg
  locals l h' := by simp [hl] at h'
  shared _ := h

-- A future from outside of the chain takes over, while there has been no shared state before it.
theorem adopt {f : Fut ε α ξ} (hc : s.called = s.attached) (hg : s.log = m.expectedLog s.called)
    (hi : ∀ y, s.Inert y)
    (hf : ∀ y, (s.state y).hasResult = false ∧ (s.state y).hasContinuation = false)
    (hv : .makeTryCall f.outcome = m.value s.attached) : Inv m (s.adopt s.attached f) := by
  cases f
  case localState => exact of_local rfl hg ⟨hv, hc, hi, hf⟩
  case sharedState fate early e =>
    refine of_shared rfl (by simpa [Config.adopt] using hg) ⟨?_, ?_, fun p hp => ?_, fun j h₁ h₂ => ?_, fun p hp => ?_⟩
    all_goals simp only [Config.adopt, share_called, share_attached, hc] at *
    case refine_1 =>
      refine .future (hv ▸ share_carry fate early (hi _).right e) fun y hy => ?_
      exact ⟨(share_promise_ne hy).trans (hi y).left, by simpa using (hi y).right⟩
    case refine_2 => exact Nat.le_refl _
    case refine_3 =>
      rw [share_state_ne (by simp [Fin.ne_of_gt hp])]
      exact (hf _).left
    case refine_4 => omega
    case refine_5 =>
      by_cases h : p = s.attached
      · simp [h]
      · rw [share_state_ne (by simpa using h)]
        exact (hf _).right

theorem init : Inv m m.init := by
  refine adopt rfl rfl (fun _ => ⟨rfl, trivial⟩) (fun _ => by simp) ?_
  simp [Setup.value, Setup.expected, evalChain]

-- The log after the call of callback `j`.
theorem log_call (i : Inv m s) (hc : s.called = j.castSucc) :
    (s.call (m.callbacks j) j (m.value j.castSucc)).log = m.expectedLog j.succ := by
  simp only [Config.call, Fin.val_succ, m.expectedLog_succ, i.log, hc, Fin.val_castSucc]

theorem thenLocal (i : Inv m s) (hl : s.localState = some l) (ha : s.attached = j.castSucc) :
    Inv m (m.thenLocal s j l) := by
  obtain ⟨hv, hc, hi, hf⟩ := i.locals l hl
  have hlog := i.log_call (hc.trans ha)
  have hnext := m.value_succ j
  rw [ha] at hv
  simp only [Setup.thenLocal]
  rw [hv]
  -- The function that the callback stands for determines the next result.
  cases hfn : (m.callbacks j).func <;> simp only [hfn, Func.eval] at hnext ⊢
  case value f => exact of_local rfl hlog ⟨hnext.symm, rfl, hi, hf⟩
  case void f  =>
    rw [Try.ofVoid_makeTryCall, ← hnext]
    exact of_local rfl hlog ⟨rfl, rfl, hi, hf⟩
  case future f =>
    cases hr : f (m.value j.castSucc) <;> simp only [hr] at hnext ⊢
    case error x => exact of_local rfl hlog ⟨hnext.symm, rfl, hi, hf⟩
    case ok fut =>
      let s' : Config n ε α ξ := { s.call (m.callbacks j) j (m.value j.castSucc) with attached := j.succ }
      cases fut
      case localState r e          => exact adopt (s := s') (f := .localState r _) rfl hlog hi hf hnext.symm
      case sharedState fate early e =>
        exact adopt (s := s') (f := .sharedState fate early _) rfl hlog hi hf hnext.symm

end Inv

-- A change at the shared states that moves nothing.
theorem Phase.congr {p : Fin (n + 1)} (h : Phase m s p) (hp : s₂.promise = s.promise) (hpc : s₂.pc = s.pc)
    (hr : ∀ j, s₂.state (.returned j) = s.state (.returned j))
    (hf : (s₂.state (.future p)).hasResult = (s.state (.future p)).hasResult)
    (hc : s.CarryAt (.future p) (m.value p) → s₂.CarryAt (.future p) (m.value p)) : Phase m s₂ p := by
  have hi (y) (h : s.Inert y) : s₂.Inert y := by
    rw [Config.Inert, hp, hpc]
    exact h
  cases h
  case future h ho => exact .future (hc h) fun y hy => hi y (ho y hy)
  case settle h₁ h₂ h₃ h₄ ho =>
    exact .settle (hf.trans h₁) (hpc ▸ h₂) (hp ▸ h₃) h₄ fun y hy => hi y (ho y hy)
  case attach j h₁ h₂ h₃ h₄ h₅ ho =>
    refine .attach (hf.trans h₁) (hpc ▸ h₂) (hp ▸ h₃) ?_ (hr j ▸ h₅) fun y h h' => hi y (ho y h h')
    rw [Config.CarryAt, hp, hpc, hr]
    exact h₄
  case relay j h₁ h₂ h₃ h₄ ho =>
    refine .relay (hf.trans h₁) ?_ (hr j ▸ h₃) (hr j ▸ h₄) fun y hy => hi y (ho y hy)
    rw [Config.CarryAt, hp, hpc, hr]
    exact h₂

theorem Phase.of_hasResult {p : Fin (n + 1)} (h : Phase m s p)
    (hr : (s.state (.future p)).hasResult = true) :
    s.CarryAt (.future p) (m.value p) ∧ ∀ y, y ≠ .future p → s.Inert y := by
  cases h
  case future h ho => exact ⟨h, ho⟩
  all_goals simp_all

theorem Carry.setExecutor {fs : FutureState ε α (Cont n) ξ Empty} (h : Carry t p fs pc)
    (hc : fs.hasContinuation = false) : Carry t p (fs.setExecutor e) pc := by
  cases h
  case pending ht hr hq  => exact .pending ht hr hq
  case ready hr ht hc hq => exact .ready hr ht hc hq
  case done h _          => simp [hc] at h

namespace Shared

-- A change of the last shared state that is no step of it.
theorem setState {fs : FutureState ε α (Cont n) ξ Empty} (h : Shared m s)
    (hr : fs.hasResult = (s.state (.future s.attached)).hasResult)
    (hc : fs.hasContinuation = false)
    (hf : ∀ t p pc, Carry t p (s.state (.future s.attached)) pc → Carry t p fs pc) :
    Shared m (s.setState (.future s.attached) fs) := by
  have hs (p) : p ≠ s.attached → Function.update s.state (.future s.attached) fs (.future p) =
      s.state (.future p) := fun hp => Function.update_of_ne (by simpa using hp) ..
  have hr' (p) : (Function.update s.state (.future s.attached) fs (.future p)).hasResult =
      (s.state (.future p)).hasResult := by
    by_cases hp : p = s.attached
    · subst hp
      rw [Function.update_self, hr]
    · rw [hs p hp]
  refine ⟨h.phase.congr rfl rfl (fun j => by simp [Config.setState]) (hr' _) fun hcar => ?_, h.le,
    fun p hp => (hr' p).trans (h.result p hp), fun j h₁ h₂ => ?_, fun p hp => ?_⟩
  · by_cases hp : s.called = s.attached
    · rw [hp] at hcar ⊢
      simp only [Config.CarryAt, Config.setState, Function.update_self]
      exact hf _ _ _ hcar
    · simpa only [Config.CarryAt, Config.setState, hs _ hp] using hcar
  · simp only [Config.setState, hs _ (Fin.ne_of_lt h₂)]
    exact h.waiting j h₁ h₂
  · by_cases hp' : p = s.attached
    · simp [Config.setState, hp', hc]
    · simp only [Config.setState, hs _ hp']
      exact h.free p hp

end Shared

namespace Inv

theorem via (i : Inv m s) (v : Option (Option ξ)) : Inv m (s.via v) := by
  cases v
  case none => exact i
  case some e =>
    simp only [Config.via]
    cases hl : s.localState
    case some l =>
      have h := i.locals l hl
      exact of_local rfl i.log ⟨h.value, h.called, h.inert, h.fresh⟩
    case none =>
      have h := i.shared hl
      have hc := h.free s.attached (Nat.le_refl _)
      exact of_shared hl i.log (h.setState rfl hc fun _ _ _ h => h.setExecutor hc)

end Inv

theorem attached_via (v : Option (Option ξ)) : (s.via v).attached = s.attached := by
  cases v
  case none   => rfl
  case some e => cases hl : s.localState <;> simp [Config.via, hl, Config.setState]

-- The effect of `ThenImpl` on a shared state.
def Config.attachShared (s : Config n ε α ξ) (j : Fin n) : Config n ε α ξ :=
  let fs := s.state (.future j.castSucc)
  { s with attached := j.succ }.setState (.future j.succ) (FutureState.new.setExecutor fs.executor_)
    |>.setState (.future j.castSucc) (fs.withContinuation (.thenImpl j))
    |>.goto (.future j.castSucc) (if fs.hasResult then .schedule true else s.pc (.future j.castSucc))

theorem thenShared_eq (h : (s.state (.future j.castSucc)).hasContinuation = false) :
    Setup.thenShared s j = some (s.attachShared j) := by
  have hj : (Slot.future j.castSucc) ≠ .future j.succ := by simp [Fin.ext_iff]
  rw [Setup.thenShared, Config.setContinuation_eq]
  · simp [Config.attachShared, Config.setState, hj]
  · simpa [Config.setState, hj] using h

namespace Config

theorem attachShared_state_castSucc :
    (s.attachShared j).state (.future j.castSucc) =
      (s.state (.future j.castSucc)).withContinuation (.thenImpl j) := by
  simp [attachShared, goto, setState]

theorem attachShared_state_succ :
    (s.attachShared j).state (.future j.succ) =
      FutureState.new.setExecutor (s.state (.future j.castSucc)).executor_ := by
  simp [attachShared, goto, setState, Fin.ext_iff]

theorem attachShared_state_ne (h₁ : x ≠ .future j.castSucc) (h₂ : x ≠ .future j.succ) :
    (s.attachShared j).state x = s.state x := by
  simp [attachShared, goto, setState, h₁, h₂]

theorem attachShared_pc_ne (h : x ≠ .future j.castSucc) : (s.attachShared j).pc x = s.pc x := by
  simp [attachShared, goto, setState, h]

end Config

theorem Phase.attachShared (h : Shared m s) (ha : s.attached = j.castSucc) :
    Phase m (s.attachShared j) s.called := by
  have hle := ha ▸ h.le
  have hc := h.free j.castSucc (ha ▸ Nat.le_refl _)
  have hsucc : s.called ≠ j.succ := Fin.ne_of_lt (Nat.lt_of_le_of_lt hle j.castSucc_lt_succ)
  have hf : ((s.attachShared j).state (.future s.called)).hasResult =
      (s.state (.future s.called)).hasResult := by
    by_cases hd : s.called = j.castSucc
    · rw [hd, Config.attachShared_state_castSucc, FutureState.hasResult_withContinuation]
    · rw [Config.attachShared_state_ne (by simpa using hd) (by simpa using hsucc)]
  have hcar (hcar : s.CarryAt (.future s.called) (m.value s.called)) :
      (s.attachShared j).CarryAt (.future s.called) (m.value s.called) := by
    by_cases hd : s.called = j.castSucc
    · rw [hd] at hcar ⊢
      rw [Config.CarryAt, Config.attachShared_state_castSucc]
      simpa [Config.attachShared, Config.goto, Config.setState] using hcar.continuation hc
    · rw [Config.CarryAt, Config.attachShared_state_ne (by simpa using hd) (by simpa using hsucc),
        Config.attachShared_pc_ne (by simpa using hd)]
      exact hcar
  -- Either the continuation meets a result, so that it is scheduled, or no step changes.
  cases hr : (s.state (.future j.castSucc)).hasResult
  case true =>
    have hd : s.called = j.castSucc := by
      by_contra hd
      have := h.result _ (lt_of_le_of_ne hle hd)
      simp [hr] at this
    obtain ⟨hres, ho⟩ := h.phase.of_hasResult (hd ▸ hr)
    refine .future (hcar hres) fun y hy => ?_
    rw [Config.Inert, Config.attachShared_pc_ne (hd ▸ hy)]
    exact ho y hy
  case false =>
    have hpc : (s.attachShared j).pc = s.pc := by
      simp [Config.attachShared, Config.goto, Config.setState, hr]
    exact h.phase.congr rfl hpc (fun k => Config.attachShared_state_ne (by simp) (by simp)) hf hcar

theorem Shared.attachShared (h : Shared m s) (ha : s.attached = j.castSucc) : Shared m (s.attachShared j) where
  phase := Phase.attachShared h ha
  le    := Nat.le_trans h.le (by simp [ha, Config.attachShared, Config.goto, Config.setState])
  result p hp := by
    by_cases h₁ : p = j.castSucc
    · subst h₁
      rw [Config.attachShared_state_castSucc, FutureState.hasResult_withContinuation]
      exact h.result _ hp
    · by_cases h₂ : p = j.succ
      · subst h₂
        simp [Config.attachShared_state_succ]
      · rw [Config.attachShared_state_ne (by simpa using h₁) (by simpa using h₂)]
        exact h.result p hp
  waiting k h₁ h₂ := by
    have hk : k ≤ j := Nat.le_of_lt_succ h₂
    by_cases hkj : k = j
    · subst hkj
      simp [Config.attachShared_state_castSucc]
    · have hlt : k < j := lt_of_le_of_ne hk hkj
      rw [Config.attachShared_state_ne (by simpa using hkj) (by simp [Fin.ext_iff]; omega)]
      exact h.waiting k h₁ (by rw [ha]; exact hlt)
  free p hp := by
    have hp : j.succ ≤ p := hp
    have h₁ : p ≠ j.castSucc := Fin.ne_of_gt (Nat.lt_of_lt_of_le j.castSucc_lt_succ hp)
    by_cases h₂ : p = j.succ
    · subst h₂
      simp [Config.attachShared_state_succ]
    · rw [Config.attachShared_state_ne (by simpa using h₁) (by simpa using h₂)]
      exact h.free p (ha ▸ Nat.le_trans (Nat.le_of_lt j.castSucc_lt_succ) hp)

theorem Inv.attach (i : Inv m s₁) (h : m.attach s₁ v = some s₂) : Inv m s₂ := by
  simp only [Setup.attach] at h
  split at h
  case isFalse => contradiction
  case isTrue hlt =>
    have hv := i.via v
    have ha : (s₁.via v).attached = (⟨s₁.attached, hlt⟩ : Fin n).castSucc := attached_via v
    cases hl : (s₁.via v).localState <;> simp only [hl] at h
    case some l =>
      cases h
      exact hv.thenLocal hl ha
    case none =>
      have hs := hv.shared hl
      rw [thenShared_eq (hs.free _ (ha ▸ Nat.le_refl _))] at h
      cases h
      exact of_shared hl hv.log (hs.attachShared ha)

-- A step that neither attaches a continuation nor gives a result to a later future.
theorem Shared.of_step (h : Shared m s₁) (hp : Phase m s₂ s₂.called) (ha : s₂.attached = s₁.attached)
    (hc : s₁.called ≤ s₂.called) (hle : s₂.called ≤ s₂.attached)
    (hr : ∀ p, s₂.called < p → (s₂.state (.future p)).hasResult = (s₁.state (.future p)).hasResult)
    (hk : ∀ p, (s₂.state (.future p)).hasContinuation = (s₁.state (.future p)).hasContinuation ∧
      (s₂.state (.future p)).continuation_ = (s₁.state (.future p)).continuation_) : Shared m s₂ where
  phase         := hp
  le            := hle
  result p h'   := (hr p h').trans (h.result p (Nat.lt_of_le_of_lt hc h'))
  waiting j h' g := by
    rw [(hk _).left, (hk _).right]
    exact h.waiting j (Nat.le_trans hc h') (ha ▸ g)
  free p h'     := (hk p).left.trans (h.free p (ha ▸ h'))

namespace Config

-- What `SetResult` makes of a state without a result, for use with a promise that the user holds, and
-- for the promise of a callback.
def resulting (s : Config n ε α ξ) (x : Slot n) (t : Try ε α) : Config n ε α ξ :=
  (s.setState x ((s.state x).withResult t)).goto x
    (if (s.state x).hasContinuation then .schedule false else s.pc x)

theorem resulting_carry (hp : s.promise x = none) (hq : (s.pc x).Quiet) : (s.resulting x t).CarryAt x t := by
  have h : (s.resulting x t).promise x = none := hp
  rw [CarryAt, h]
  simpa [resulting, goto, setState] using Carry.result hq

theorem resulting_inert (h : y ≠ x) (hi : s.Inert y) : (s.resulting x t).Inert y :=
  ⟨hi.left, by simpa [resulting, goto, setState, h] using hi.right⟩

theorem resulting_hasResult_ne (h : y ≠ x) : ((s.resulting x t).state y).hasResult = (s.state y).hasResult := by
  simp [resulting, goto, setState, h]

theorem resulting_continuation (y : Slot n) :
    ((s.resulting x t).state y).hasContinuation = (s.state y).hasContinuation ∧
    ((s.resulting x t).state y).continuation_ = (s.state y).continuation_ := by
  by_cases h : y = x
  · subst h
    simp [resulting, goto, setState]
  · simp [resulting, goto, setState, h]

end Config

theorem Carry.of_promise {fs : FutureState ε α (Cont n) ξ Empty} {fate : Fate ε α}
    (h : Carry t (some fate) fs pc) :
    t = .makeTryCall fate.outcome ∧ fs.hasResult = false ∧ pc.Quiet := by
  cases h
  case pending h₁ h₂ h₃ => exact ⟨h₁, h₂, h₃⟩

def Config.fulfilled (s : Config n ε α ξ) (x : Slot n) (fate : Fate ε α) : Config n ε α ξ :=
  { s with promise := Function.update s.promise x none }.resulting x (.makeTryCall fate.outcome)

-- The only promise that the user still has to use is that of the state that carries the next result.
theorem Phase.fulfil {p : Fin (n + 1)} (h : Phase m s p) (hx : s.promise x = some fate) :
    (s.state x).hasResult = false ∧ (∀ q, p < q → x ≠ .future q) ∧ Phase m (s.fulfilled x fate) p := by
  have hne {y} (hi : s.Inert y) : x ≠ y := by
    rintro rfl
    have := hi.left
    simp [hx] at this
  have hcar {v} (hc : s.CarryAt x v) : (s.state x).hasResult = false ∧ (s.fulfilled x fate).CarryAt x v := by
    rw [Config.CarryAt, hx] at hc
    obtain ⟨rfl, hr, hq⟩ := hc.of_promise
    exact ⟨hr, Config.resulting_carry (by simp) hq⟩
  have hi {y} (hy : y ≠ x) (hi : s.Inert y) : (s.fulfilled x fate).Inert y :=
    Config.resulting_inert hy ⟨by simpa [hy] using hi.left, hi.right⟩
  cases h
  case future hc ho =>
    obtain rfl : x = .future p := by
      by_contra hy
      exact hne (ho x hy) rfl
    exact ⟨(hcar hc).left, fun q hq => by simp [Fin.ne_of_lt hq], .future (hcar hc).right fun y hy => hi hy (ho y hy)⟩
  case settle y j _ _ hp _ ho =>
    by_cases hy : x = y
    · simp [← hy, hx] at hp
    · exact absurd rfl (hne (ho x hy))
  case attach j hr hpc hp hc hk ho =>
    obtain rfl : x = .returned j := by
      by_contra hy
      by_cases hy' : x = .future j.castSucc
      · simp [← hy', hx] at hp
      · exact hne (ho x hy' hy) rfl
    refine ⟨(hcar hc).left, by simp, .attach ?_ ?_ ?_ (hcar hc).right ?_ fun y hy hy' => hi hy' (ho y hy hy')⟩
    · exact (Config.resulting_hasResult_ne (by simp)).trans hr
    · simpa [Config.fulfilled, Config.resulting, Config.goto, Config.setState] using hpc
    · simpa [Config.fulfilled, Config.resulting, Config.goto, Config.setState] using hp
    · exact (Config.resulting_continuation _).left.trans hk
  case relay j hr hc hk hk' ho =>
    obtain rfl : x = .returned j := by
      by_contra hy
      exact hne (ho x hy) rfl
    refine ⟨(hcar hc).left, by simp, .relay ?_ (hcar hc).right ?_ ?_ fun y hy => hi hy (ho y hy)⟩
    · exact (Config.resulting_hasResult_ne (by simp)).trans hr
    · exact (Config.resulting_continuation _).left.trans hk
    · exact (Config.resulting_continuation _).right.trans hk'

theorem fulfil_eq (hx : s.promise x = some fate) (hr : (s.state x).hasResult = false) :
    Setup.fulfil s x = some (s.fulfilled x fate) := by
  rw [Setup.fulfil, hx]
  exact Config.setResult_eq hr

theorem Shared.fulfil (h : Shared m s) (hx : s.promise x = some fate) : Shared m (s.fulfilled x fate) := by
  obtain ⟨_, hne, hp⟩ := h.phase.fulfil hx
  exact h.of_step hp rfl (Nat.le_refl _) h.le (fun p hp => Config.resulting_hasResult_ne (hne p hp).symm)
    fun p => Config.resulting_continuation _

theorem Inv.fulfil (i : Inv m s₁) (h : Setup.fulfil s₁ x = some s₂) : Inv m s₂ := by
  cases hx : s₁.promise x
  case none => simp [Setup.fulfil, hx] at h
  case some fate =>
    cases hl : s₁.localState
    case some l => simp [((i.locals l hl).inert x).left] at hx
    case none =>
      have hs := i.shared hl
      rw [fulfil_eq hx (hs.phase.fulfil hx).left] at h
      cases h
      exact of_shared hl i.log (hs.fulfil hx)

theorem Carry.of_dispatching {fs : FutureState ε α (Cont n) ξ Empty} (h : Carry t p fs pc)
    (hd : pc.Dispatching executor) :
    p = none ∧ fs.hasResult = true ∧ fs.try_value_ = t ∧ fs.hasContinuation = true := by
  cases h
  case done h₁ h₂ h₃ _    => exact ⟨rfl, h₁, h₂, h₃⟩
  case pending hq         => cases pc <;> contradiction
  case ready hq           => cases pc <;> contradiction

theorem Carry.quiet_or_dispatching {fs : FutureState ε α (Cont n) ξ Empty} (h : Carry t p fs pc) :
    pc.Quiet ∨ pc.Dispatching fs.executor_ := by
  cases h
  case pending h => exact .inl h
  case ready h   => exact .inl h
  case done h    => exact .inr h

-- A state that is on the way to its continuation is the one that carries the next result.
theorem Phase.of_dispatching {p : Fin (n + 1)} (h : Phase m s p)
    (hx : (s.pc x).Dispatching executor) :
    s.promise x = none ∧ (s.state x).hasResult = true ∧ (s.state x).hasContinuation = true ∧
    (∀ y, y ≠ x → s.Inert y) ∧
    ((x = .future p ∧ (s.state x).try_value_ = m.value p) ∨
      ∃ j : Fin n, x = .returned j ∧ p = j.succ ∧ (s.state x).try_value_ = m.value p ∧
        (s.state (.future p)).hasResult = false ∧ (s.state x).continuation_ = some (.relay j)) := by
  have hne {y} (hi : s.Inert y) : x ≠ y := by
    rintro rfl
    have := hi.right
    cases hp : s.pc x <;> rw [hp] at this hx <;> contradiction
  cases h
  case future hc ho =>
    obtain rfl : x = .future p := by
      by_contra hy
      exact hne (ho x hy) rfl
    obtain ⟨h₁, h₂, h₃, h₄⟩ := Carry.of_dispatching hc hx
    exact ⟨h₁, h₂, h₄, ho, .inl ⟨rfl, h₃⟩⟩
  case settle y j _ hp _ _ ho =>
    by_cases hy : x = y
    · rw [hy, hp] at hx
      contradiction
    · exact absurd rfl (hne (ho x hy))
  case attach j _ hp _ hc hk ho =>
    by_cases hy : x = .future j.castSucc
    · rw [hy, hp] at hx
      contradiction
    · by_cases hy' : x = .returned j
      · subst hy'
        have := (Carry.of_dispatching hc hx).2.2.2
        simp [hk] at this
      · exact absurd rfl (hne (ho x hy hy'))
  case relay j hr hc _ hk ho =>
    obtain rfl : x = .returned j := by
      by_contra hy
      exact hne (ho x hy) rfl
    obtain ⟨h₁, h₂, h₃, h₄⟩ := Carry.of_dispatching hc hx
    exact ⟨h₁, h₂, h₄, ho, .inr ⟨j, rfl, rfl, h₃, hr, hk⟩⟩

theorem Config.inert_goto {pc : Pc n ε α} (hy : y ≠ x) (h : s.Inert y) : (s.goto x pc).Inert y :=
  ⟨h.left, by simpa [goto, hy] using h.right⟩

theorem Config.inert_goto_finished (h : s.promise x = none) : (s.goto x .finished).Inert x :=
  ⟨h, by simp [goto, Pc.Quiet]⟩

namespace Shared

-- A step of `ScheduleContinuation`.
theorem schedule {pc : Pc n ε α} (h : Shared m s) (hx : (s.pc x).Dispatching (s.state x).executor_)
    (hpc : pc.Dispatching (s.state x).executor_) : Shared m (s.goto x pc) := by
  obtain ⟨hp, hr, hc, ho, hw⟩ := h.phase.of_dispatching hx
  have hcar (t) (ht : (s.state x).try_value_ = t) : (s.goto x pc).CarryAt x t := by
    have : (s.goto x pc).promise x = none := hp
    rw [Config.CarryAt, this]
    exact .done hr ht hc (by simpa [Config.goto] using hpc)
  have ho' : ∀ y, y ≠ x → (s.goto x pc).Inert y := fun y hy => Config.inert_goto hy (ho y hy)
  refine h.of_step ?_ rfl (Nat.le_refl _) h.le (fun _ _ => rfl) fun _ => ⟨rfl, rfl⟩
  change Phase m _ s.called
  cases hw
  case inl hw =>
    obtain ⟨rfl, hv⟩ := hw
    exact .future (hcar _ hv) ho'
  case inr hw =>
    obtain ⟨j, rfl, hj, hv, hf, hk⟩ := hw
    rw [hj] at hf hv ⊢
    exact .relay hf (hcar _ hv) hc hk ho'

-- The function that callback `j` stands for has been called with a result from outside of the chain, or
-- without one, so that the promise gets the next result.
theorem settle (h : Shared m s) {j : Fin n} (hx : (s.pc x).Dispatching (s.state x).executor_)
    (hj : s.called ≤ j.succ) (hle : j.succ ≤ s.attached) (hr : (s.state (.future j.succ)).hasResult = false)
    (hs : s₂.state = s.state) (hp : s₂.promise = s.promise) (ha : s₂.attached = s.attached)
    (hpc : s₂.pc = Function.update s.pc x (.setResult j (m.value j.succ))) (hc : s₂.called = j.succ) :
    Shared m s₂ := by
  obtain ⟨hpx, hrx, _, ho, _⟩ := h.phase.of_dispatching hx
  refine h.of_step ?_ ha (hc ▸ hj) (hc ▸ ha ▸ hle) (fun _ _ => by rw [hs]) fun _ => by rw [hs]; exact ⟨rfl, rfl⟩
  rw [hc]
  refine .settle (x := x) (hs ▸ hr) (by simp [hpc]) (hp ▸ hpx) ?_ fun y hy => ?_
  · rintro rfl
    simp [hr] at hrx
  · exact ⟨hp ▸ (ho y hy).left, by simpa [hpc, hy] using (ho y hy).right⟩

-- It has been called, and it has returned a future with a shared state.
theorem share (h : Shared m s) {j : Fin n} (hx : (s.pc x).Dispatching (s.state x).executor_)
    (hxj : x = .future j.castSucc) (hj : s.called ≤ j.succ) (hle : j.succ ≤ s.attached)
    (hr : (s.state (.future j.succ)).hasResult = false) (hv : .makeTryCall fate.outcome = m.value j.succ)
    (early : Bool) (e : Option ξ) (hs : s₂ = { (s.share (.returned j) fate early e).goto x (.setContinuation j) with
      log := s₂.log, called := j.succ }) : Shared m s₂ := by
  obtain ⟨hpx, _, _, ho, _⟩ := h.phase.of_dispatching hx
  subst hxj
  have hret : (Slot.returned j : Slot n) ≠ .future j.castSucc := by simp
  have hst (p) : s₂.state (.future p) = s.state (.future p) := by
    rw [hs]
    exact share_state_ne (by simp)
  rw [hs] at hst ⊢
  refine h.of_step (.attach ?_ ?_ ?_ ?_ ?_ fun y hy hy' => ?_) share_attached hj ?_
    (fun _ _ => by rw [hst]) fun _ => by rw [hst]; exact ⟨rfl, rfl⟩
  · rw [hst, hr]
  · simp [Config.goto]
  · exact (share_promise_ne hret.symm).trans hpx
  · have := share_carry fate early (ho _ hret).right e
    rw [hv] at this
    simpa [Config.CarryAt, Config.goto, hret] using this
  · exact share_hasContinuation
  · have hi : s.Inert y := ho y hy
    exact Config.inert_goto hy ⟨(share_promise_ne hy').trans hi.left, by simpa using hi.right⟩
  · simpa [Config.goto] using hle

end Shared

-- What the continuation of a state is that is about to call it.
theorem Shared.at_call (h : Shared m s) (hx : s.pc x = .call) :
    (∃ j : Fin n, x = .future j.castSucc ∧ s.called = j.castSucc ∧ j.castSucc < s.attached ∧
      (s.state x).continuation_ = some (.thenImpl j) ∧ (s.state x).try_value_ = m.value j.castSucc) ∨
    (∃ j : Fin n, x = .returned j ∧ s.called = j.succ ∧ (s.state (.future j.succ)).hasResult = false ∧
      (s.state x).continuation_ = some (.relay j) ∧ (s.state x).try_value_ = m.value j.succ) := by
  have hd : (s.pc x).Dispatching (s.state x).executor_ := by simp [hx, Pc.Dispatching]
  obtain ⟨_, _, hc, _, ⟨rfl, hv⟩ | ⟨j, rfl, hj, hv, hf, hk⟩⟩ := h.phase.of_dispatching hd
  case inl =>
    have hlt : s.called < s.attached := by
      by_contra hge
      simp [h.free s.called (Nat.not_lt.mp hge)] at hc
    obtain ⟨j, hj⟩ : ∃ j : Fin n, s.called = j.castSucc := ⟨⟨s.called, by omega⟩, rfl⟩
    rw [hj] at hlt hv ⊢
    exact .inl ⟨j, rfl, rfl, hlt, (h.waiting j (hj ▸ Nat.le_refl _) hlt).right, hv⟩
  case inr => exact .inr ⟨j, rfl, hj, hj ▸ hf, hk, hj ▸ hv⟩

theorem Inv.call (i : Inv m s₁) (hl : s₁.localState = none) (hx : s₁.pc x = .call)
    (h : m.callContinuation s₁ x = some s₂) : Inv m s₂ := by
  have hs := i.shared hl
  have hd : (s₁.pc x).Dispatching (s₁.state x).executor_ := by simp [hx, Pc.Dispatching]
  obtain ⟨j, rfl, hj, hlt, hk, hv⟩ | ⟨j, rfl, hj, hf, hk, hv⟩ := hs.at_call hx
  case inr =>
    simp only [Setup.callContinuation, hk, hv] at h
    cases h
    exact of_shared hl i.log (hs.settle hd hj.le (hj ▸ hs.le) hf rfl rfl rfl rfl hj)
  case inl =>
    have hsucc : s₁.called < j.succ := hj ▸ j.castSucc_lt_succ
    have hres := hs.result _ hsucc
    have hlog := i.log_call hj
    have hnext := m.value_succ j
    -- With a result at hand, the promise is used next. With a shared state, a continuation is set on it.
    have hset (t) (ht : m.value j.succ = t) :
        Inv m ((s₁.call (m.callbacks j) j (m.value j.castSucc)).goto (.future j.castSucc) (.setResult j t)) :=
      of_shared hl hlog (hs.settle hd hsucc.le hlt hres rfl rfl rfl (ht ▸ rfl) rfl)
    simp only [Setup.callContinuation, hk, hv] at h
    cases hfn : (m.callbacks j).func <;> simp only [hfn, Func.eval] at hnext h
    case value f =>
      cases h
      exact hset _ hnext
    case void f =>
      cases h
      exact hset _ (hnext.trans (Try.ofVoid_makeTryCall ..).symm)
    case future f =>
      cases hf : f (m.value j.castSucc) <;> simp only [hf] at hnext h
      case error x =>
        cases h
        exact hset _ hnext
      case ok fut =>
        cases fut <;> cases h
        case localState r e => exact hset _ hnext
        case sharedState fate early e =>
          refine of_shared (by simpa [Config.goto, Config.call] using hl) ?_
            (hs.share hd rfl hsucc.le hlt hres hnext.symm early e (by cases early <;> rfl))
          simpa [Config.goto, Config.call] using hlog

-- What `SetResult` makes of the next future, when a promise of the library is used.
theorem Shared.setResult (h : Shared m s) (hx : s.pc x = .setResult j t) :
    ((s.goto x .finished).state (.future j.succ)).hasResult = false ∧
    Shared m ((s.goto x .finished).resulting (.future j.succ) t) := by
  have hph := h.phase
  obtain ⟨hd, ht, hr, hp, hne, ho⟩ : s.called = j.succ ∧ t = m.value j.succ ∧
      (s.state (.future j.succ)).hasResult = false ∧ s.promise x = none ∧ x ≠ .future j.succ ∧
      ∀ y, y ≠ x → s.Inert y := by
    have hi : ¬ s.Inert x := fun hi => by simpa [hx, Pc.Quiet] using hi.right
    have hcar {v} (hc : s.CarryAt x v) : False := by
      have := Carry.quiet_or_dispatching hc
      simp [hx, Pc.Quiet, Pc.Dispatching] at this
    generalize s.called = p at hph
    cases hph
    case future hc ho =>
      by_cases hy : x = .future p
      · exact (hcar (hy ▸ hc)).elim
      · exact absurd (ho x hy) hi
    case settle y k hr hpc hp hne ho =>
      by_cases hy : x = y
      · subst hy
        cases hx.symm.trans hpc
        exact ⟨rfl, rfl, hr, hp, hne, ho⟩
      · exact absurd (ho x hy) hi
    case attach k _ hpc _ hc _ ho =>
      by_cases hy : x = .future k.castSucc
      · subst hy
        cases hx.symm.trans hpc
      · by_cases hy' : x = .returned k
        · exact (hcar (hy' ▸ hc)).elim
        · exact absurd (ho x hy hy') hi
    case relay k _ hc _ _ ho =>
      by_cases hy : x = .returned k
      · exact (hcar (hy ▸ hc)).elim
      · exact absurd (ho x hy) hi
  subst ht
  have hi (y) (hy : y ≠ .future j.succ) : (s.goto x .finished).Inert y := by
    by_cases hyx : y = x
    · subst hyx
      exact Config.inert_goto_finished hp
    · exact Config.inert_goto hyx (ho y hyx)
  have hf : (s.goto x .finished).Inert (.future j.succ) := Config.inert_goto hne.symm (ho _ hne.symm)
  refine ⟨hr, h.of_step ?_ rfl (Nat.le_refl _) h.le (fun q hq => ?_) fun q => Config.resulting_continuation _⟩
  · change Phase m _ s.called
    rw [hd]
    exact .future (Config.resulting_carry hf.left hf.right) fun y hy => Config.resulting_inert hy (hi y hy)
  · have hq : s.called < q := hq
    exact Config.resulting_hasResult_ne (by simpa using Fin.ne_of_gt (hd ▸ hq))

-- What `SetContinuation` makes of a returned future.
theorem Shared.setContinuation (h : Shared m s) (hx : s.pc x = .setContinuation j) :
    ((s.goto x .finished).state (.returned j)).hasContinuation = false ∧
    ∃ s₂, (s.goto x .finished).setContinuation (.returned j) (.relay j) = some s₂ ∧ Shared m s₂ ∧
      s₂.localState = s.localState ∧ s₂.log = s.log ∧ s₂.called = s.called := by
  have hph := h.phase
  obtain ⟨hd, hxj, hr, hp, hc, hk, ho⟩ : s.called = j.succ ∧ x = .future j.castSucc ∧
      (s.state (.future j.succ)).hasResult = false ∧ s.promise x = none ∧
      s.CarryAt (.returned j) (m.value j.succ) ∧ (s.state (.returned j)).hasContinuation = false ∧
      ∀ y, y ≠ x → y ≠ .returned j → s.Inert y := by
    have hi : ¬ s.Inert x := fun hi => by simpa [hx, Pc.Quiet] using hi.right
    have hcar {v} (hc : s.CarryAt x v) : False := by
      have := Carry.quiet_or_dispatching hc
      simp [hx, Pc.Quiet, Pc.Dispatching] at this
    generalize s.called = p at hph
    cases hph
    case future hc ho =>
      by_cases hy : x = .future p
      · exact (hcar (hy ▸ hc)).elim
      · exact absurd (ho x hy) hi
    case settle y k _ hpc _ _ ho =>
      by_cases hy : x = y
      · subst hy
        cases hx.symm.trans hpc
      · exact absurd (ho x hy) hi
    case attach k hr hpc hp hc hk ho =>
      by_cases hy : x = .future k.castSucc
      · subst hy
        cases hx.symm.trans hpc
        exact ⟨rfl, rfl, hr, hp, hc, hk, ho⟩
      · by_cases hy' : x = .returned k
        · exact (hcar (hy' ▸ hc)).elim
        · exact absurd (ho x hy hy') hi
    case relay k _ hc _ _ ho =>
      by_cases hy : x = .returned k
      · exact (hcar (hy ▸ hc)).elim
      · exact absurd (ho x hy) hi
  subst hxj
  refine ⟨hk, _, Config.setContinuation_eq hk, h.of_step ?_ rfl (Nat.le_refl _) h.le ?_ ?_, rfl, rfl, rfl⟩
  · change Phase m _ s.called
    rw [hd]
    refine .relay ?_ ?_ ?_ ?_ fun y hy => ?_
    · simpa [Config.goto, Config.setState] using hr
    · have := Carry.continuation (c := Cont.relay j) hc hk
      simpa [Config.CarryAt, Config.goto, Config.setState] using this
    · simp [Config.goto, Config.setState]
    · simp [Config.goto, Config.setState]
    · refine Config.inert_goto hy ?_
      by_cases hyx : y = .future j.castSucc
      · subst hyx
        exact Config.inert_goto_finished hp
      · exact Config.inert_goto hyx (ho y hyx hy)
  · intro q _
    simp [Config.goto, Config.setState]
  · intro q
    simp [Config.goto, Config.setState]

-- No state of a chain is forced to be scheduled, so that a state without an executor is never submitted.
def Config.Unforced (s : Config n ε α ξ) : Prop :=
  ∀ x, (s.state x).force_scheduled = false

namespace Config.Unforced

theorem setState {fs : FutureState ε α (Cont n) ξ Empty} (u : s.Unforced) (h : fs.force_scheduled = false) :
    (s.setState x fs).Unforced := by
  intro y
  by_cases hy : y = x <;> simp [Config.setState, hy, h, u y]

theorem setResult (u : s₁.Unforced) (h : s₁.setResult x t = some s₂) : s₂.Unforced := by
  simp only [Config.setResult] at h
  split at h <;> cases h
  case h_1 hs => exact u.setState ((FutureState.force_scheduled_setResult hs).trans (u x))
  case h_2 hs => exact u.setState ((FutureState.force_scheduled_setResult hs).trans (u x))

theorem setContinuation (u : s₁.Unforced) (h : s₁.setContinuation x c = some s₂) : s₂.Unforced := by
  simp only [Config.setContinuation] at h
  split at h <;> cases h
  case h_1 hs => exact u.setState ((FutureState.force_scheduled_setContinuation hs).trans (u x))
  case h_2 hs => exact u.setState ((FutureState.force_scheduled_setContinuation hs).trans (u x))

theorem share (u : s.Unforced) : (s.share x fate early e).Unforced := by
  cases early <;> exact u.setState rfl

theorem adopt (u : s.Unforced) (p : Fin (n + 1)) (f : Fut ε α ξ) : (s.adopt p f).Unforced := by
  cases f
  case localState  => exact u
  case sharedState => exact u.share

theorem via (u : s.Unforced) (v : Option (Option ξ)) : (s.via v).Unforced := by
  cases v
  case none => exact u
  case some e =>
    simp only [Config.via]
    split
    case h_1 => exact u
    case h_2 => exact u.setState (u _)

theorem thenLocal (u : s.Unforced) : (m.thenLocal s j l).Unforced := by
  simp only [Setup.thenLocal]
  split
  case h_1 => exact u
  case h_2 => exact u
  case h_3 =>
    split
    case h_1 => exact u
    case h_2 =>
      refine Config.Unforced.share ?_
      exact u
    case h_3 => exact u

theorem callContinuation (u : s₁.Unforced) (h : m.callContinuation s₁ x = some s₂) : s₂.Unforced := by
  simp only [Setup.callContinuation] at h
  split at h
  case h_1 => contradiction
  case h_2 =>
    split at h
    case h_1 => cases h; exact u
    case h_2 => cases h; exact u
    case h_3 =>
      split at h <;> cases h
      case h_1 => exact u
      case h_2 =>
        refine Config.Unforced.share ?_
        exact u
      case h_3 => exact u
  case h_3 =>
    cases h
    exact u

theorem step (u : s₁.Unforced) (h : m.system.step s₁ a = some s₂) : s₂.Unforced := by
  cases a <;> simp only [Setup.system] at h
  case attach v =>
    simp only [Setup.attach] at h
    split at h
    case isFalse => contradiction
    case isTrue =>
      split at h
      case h_1 =>
        cases h
        exact (u.via v).thenLocal
      case h_2 =>
        refine Config.Unforced.setContinuation ?_ h
        exact (u.via v).setState rfl
  case fulfil =>
    simp only [Setup.fulfil] at h
    split at h
    case h_1 =>
      refine Config.Unforced.setResult ?_ h
      exact u
    case h_2 => contradiction
  case step =>
    simp only [Setup.stepSlot] at h
    split at h
    case h_1 => split at h <;> cases h <;> exact u
    case h_2 =>
      split at h
      case h_1 => contradiction
      case h_2 => split at h <;> cases h <;> exact u
    case h_3 =>
      cases h
      exact u
    case h_4 => exact u.callContinuation h
    case h_5 =>
      refine Config.Unforced.setResult ?_ h
      exact u
    case h_6 =>
      refine Config.Unforced.setContinuation ?_ h
      exact u
    all_goals contradiction

theorem reachable (h : m.system.Reachable s) : s.Unforced :=
  h.invariant (Config.Unforced.adopt (fun _ => rfl) _ _) step

end Config.Unforced

namespace Inv

theorem step_slot (i : Inv m s₁) (u : s₁.Unforced) (h : m.stepSlot s₁ x inExecutor accept = some s₂) : Inv m s₂ := by
  cases hl : s₁.localState
  case some l =>
    have := ((i.locals l hl).inert x).right
    cases hx : s₁.pc x <;> simp [hx, Pc.Quiet, Setup.stepSlot] at this h
  case none =>
    have hs := i.shared hl
    have hsched (pc : Pc n ε α) (hd : (s₁.pc x).Dispatching (s₁.state x).executor_)
        (hpc : pc.Dispatching (s₁.state x).executor_) : Inv m (s₁.goto x pc) :=
      of_shared hl i.log (hs.schedule hd hpc)
    cases hx : s₁.pc x <;> simp only [hx, Setup.stepSlot] at h hsched
    case schedule =>
      split at h <;> cases h
      case isTrue      => exact hsched _ trivial trivial
      case isFalse hin =>
        refine hsched _ trivial ?_
        cases he : (s₁.state x).executor_
        case none   => simp [FutureState.runsInline, u x, he] at hin
        case some e => rfl
    case submit =>
      split at h
      case h_1 => contradiction
      case h_2 hsub =>
        have he : (s₁.state x).executor_.isSome := by
          simp only [FutureState.submission, Option.map_eq_some_iff] at hsub
          obtain ⟨e, he, _⟩ := hsub
          simp [he]
        split at h <;> cases h <;> exact hsched _ he trivial
    case queued =>
      cases h
      exact hsched _ trivial trivial
    case call => exact i.call hl hx h
    case setResult j t =>
      obtain ⟨hr, hs⟩ := hs.setResult hx
      rw [Config.setResult_eq hr] at h
      cases h
      exact of_shared hl i.log hs
    case setContinuation j =>
      obtain ⟨_, s, hs, h', h₁, h₂, h₃⟩ := hs.setContinuation hx
      rw [hs] at h
      cases h
      exact of_shared (h₁.trans hl) (by rw [h₂, h₃, i.log]) h'
    all_goals contradiction

theorem step (i : Inv m s₁) (u : s₁.Unforced) (h : m.system.step s₁ a = some s₂) : Inv m s₂ := by
  cases a
  case attach => exact i.attach h
  case fulfil => exact i.fulfil h
  case step   => exact i.step_slot u h

theorem reachable (h : m.system.Reachable s) : Inv m s := by
  induction h
  case init      => exact init
  case step e ih => exact ih.step (.reachable ‹_›) e

end Inv

-- A bound on the number of steps that are left.

def Pc.rank : Slot n → Pc n ε α → Nat
  | .future _,   .schedule _        => 4
  | .future _,   .submit            => 3
  | .future _,   .queued            => 2
  | .future _,   .call              => 1
  | .returned _, .schedule _        => 10
  | .returned _, .submit            => 9
  | .returned _, .queued            => 8
  | .returned _, .call              => 7
  | _,           .setResult _ _     => 5
  | _,           .setContinuation _ => 11
  | _,           _                  => 0

def promiseRank : Slot n → Option (Fate ε α) → Nat
  | .future _,   some _ => 5
  | .returned _, some _ => 11
  | _,           none   => 0

def Config.rank (s : Config n ε α ξ) : Nat :=
  5 * (n - s.attached) + 22 * (n - s.called) + ∑ x, (s.pc x).rank x + ∑ x, promiseRank x (s.promise x)

namespace Config

theorem rank_goto (s : Config n ε α ξ) (x : Slot n) (pc : Pc n ε α) :
    (s.goto x pc).rank + (s.pc x).rank x = s.rank + pc.rank x := by
  have := Count.sum_update_of Pc.rank s.pc x pc
  simp only [rank, goto]
  omega

@[simp]
theorem rank_setState : (s.setState x fs).rank = s.rank := rfl

theorem rank_setResult (h : s₁.setResult x t = some s₂) :
    s₂.rank ≤ s₁.rank + (.schedule false : Pc n ε α).rank x := by
  simp only [setResult] at h
  split at h <;> cases h
  case h_1 fs _ =>
    have := rank_goto (s₁.setState x fs) x (.schedule false)
    rw [rank_setState] at this
    omega
  case h_2 => exact Nat.le_add_right ..

theorem rank_setContinuation (h : s₁.setContinuation x c = some s₂) :
    s₂.rank ≤ s₁.rank + (.schedule true : Pc n ε α).rank x := by
  simp only [setContinuation] at h
  split at h <;> cases h
  case h_1 fs _ =>
    have := rank_goto (s₁.setState x fs) x (.schedule true)
    rw [rank_setState] at this
    omega
  case h_2 => exact Nat.le_add_right ..

theorem rank_promise (s : Config n ε α ξ) (x : Slot n) :
    ({ s with promise := Function.update s.promise x none } : Config n ε α ξ).rank +
      promiseRank x (s.promise x) = s.rank := by
  have h := Count.sum_update_of promiseRank s.promise x none
  have hn : promiseRank x (none : Option (Fate ε α)) = 0 := by cases x <;> rfl
  simp only [rank]
  omega

theorem rank_share (s : Config n ε α ξ) (x : Slot n) (fate : Fate ε α) (early : Bool) (e : Option ξ) :
    (s.share x fate early e).rank ≤ s.rank + promiseRank x (some fate) := by
  have h₁ := Count.sum_update_of promiseRank s.promise x (some fate)
  have h₂ := Count.sum_update_of promiseRank s.promise x none
  have h₃ : promiseRank x (none : Option (Fate ε α)) = 0 := by cases x <;> rfl
  cases early <;> simp only [share, rank, setState, Bool.false_eq_true, if_false, if_true] <;> omega

theorem rank_call {c : Callback ε α ξ} (h : s.called = j.castSucc) : (s.call c j t).rank + 22 = s.rank := by
  simp only [rank, call, h, Fin.val_succ, Fin.val_castSucc]
  omega

@[simp]
theorem rank_via (v : Option (Option ξ)) : (s.via v).rank = s.rank := by
  cases v
  case none   => rfl
  case some e =>
    simp only [via]
    split <;> rfl

end Config

theorem rank_thenLocal (hc : s.called = j.castSucc) (ha : s.attached = j.castSucc) :
    (m.thenLocal s j l).rank < s.rank := by
  let s' : Config n ε α ξ := { s.call (m.callbacks j) j l.try_value_ with attached := j.succ }
  have hrank : s'.rank + 27 = s.rank := by
    simp only [s', Config.rank, Config.call, hc, ha, Fin.val_succ, Fin.val_castSucc]
    omega
  have hlocal (l') : ({ s' with localState := l' } : Config n ε α ξ).rank = s'.rank := rfl
  have hshare (fate early e) :
      ({ s'.share (.future j.succ) fate early e with localState := none } : Config n ε α ξ).rank ≤ s'.rank + 5 :=
    s'.rank_share (.future j.succ) fate early e
  simp only [Setup.thenLocal]
  split
  case h_1 => exact (hlocal _).trans_lt (by omega)
  case h_2 => exact (hlocal _).trans_lt (by omega)
  case h_3 =>
    split
    case h_1 => exact (hlocal _).trans_lt (by omega)
    case h_2 => exact (hshare _ _ _).trans_lt (by omega)
    case h_3 => exact (hlocal _).trans_lt (by omega)

theorem rank_attach (i : Inv m s₁) (h : m.attach s₁ v = some s₂) : s₂.rank < s₁.rank := by
  simp only [Setup.attach] at h
  split at h
  case isFalse => contradiction
  case isTrue hlt =>
    have hv := i.via v
    have ha : (s₁.via v).attached = (⟨s₁.attached, hlt⟩ : Fin n).castSucc := attached_via v
    rw [← s₁.rank_via v]
    cases hl : (s₁.via v).localState <;> simp only [hl] at h
    case some l =>
      cases h
      exact rank_thenLocal ((hv.locals l hl).called.trans ha) ha
    case none =>
      have hr := Config.rank_setContinuation h
      generalize s₁.via v = s at *
      simp only [Config.rank_setState, Pc.rank] at hr
      have hrank : ({ s with attached := Fin.succ ⟨s₁.attached, hlt⟩ } : Config n ε α ξ).rank + 5 = s.rank := by
        simp only [Config.rank, ha, Fin.val_succ, Fin.val_castSucc]
        omega
      omega

theorem rank_fulfil (h : Setup.fulfil s₁ x = some s₂) : s₂.rank < s₁.rank := by
  simp only [Setup.fulfil] at h
  split at h
  case h_2 => contradiction
  case h_1 fate hx =>
    have hr := Config.rank_setResult h
    have hp := s₁.rank_promise x
    cases x <;> simp only [hx, promiseRank, Pc.rank] at hr hp <;> omega

theorem rank_goto_lt {pc : Pc n ε α} (h : pc.rank x < (s.pc x).rank x) : (s.goto x pc).rank < s.rank := by
  have := s.rank_goto x pc
  omega

theorem rank_callContinuation (hs : Shared m s₁) (hx : s₁.pc x = .call)
    (h : m.callContinuation s₁ x = some s₂) : s₂.rank < s₁.rank := by
  obtain ⟨j, rfl, hj, _, hk, _⟩ | ⟨j, rfl, _, _, hk, _⟩ := hs.at_call hx
  case inr =>
    simp only [Setup.callContinuation, hk] at h
    cases h
    exact rank_goto_lt (by simp [hx, Pc.rank])
  case inl =>
    simp only [Setup.callContinuation, hk] at h
    let s' := s₁.call (m.callbacks j) j (s₁.state (.future j.castSucc)).try_value_
    have hcall : s'.rank + 22 = s₁.rank := Config.rank_call hj
    have hset (t) : (s'.goto (.future j.castSucc) (.setResult j t)).rank < s₁.rank := by
      have h₁ := s'.rank_goto (.future j.castSucc) (.setResult j t)
      simp only [Pc.rank] at h₁
      omega
    split at h
    case h_1 => cases h; exact hset _
    case h_2 => cases h; exact hset _
    case h_3 =>
      split at h <;> cases h
      case h_1 => exact hset _
      case h_3 => exact hset _
      case h_2 fate early e _ =>
        have h₁ := s'.rank_share (.returned j) fate early e
        have h₂ := (s'.share (.returned j) fate early e).rank_goto (.future j.castSucc) (.setContinuation j)
        have h₃ : s'.pc (.future j.castSucc) = .call := hx
        simp only [share_pc, h₃, Pc.rank, promiseRank] at h₁ h₂
        have h₄ : ((s'.share (.returned j) fate early e).goto (.future j.castSucc) (.setContinuation j)).rank <
            s₁.rank := by omega
        exact h₄

theorem rank_slot (i : Inv m s₁) (h : m.stepSlot s₁ x inExecutor accept = some s₂) : s₂.rank < s₁.rank := by
  cases hx : s₁.pc x <;> simp only [hx, Setup.stepSlot] at h
  case schedule => split at h <;> cases h <;> exact rank_goto_lt (by cases x <;> simp [hx, Pc.rank])
  case submit =>
    split at h
    case h_1 => contradiction
    case h_2 => split at h <;> cases h <;> exact rank_goto_lt (by cases x <;> simp [hx, Pc.rank])
  case queued =>
    cases h
    exact rank_goto_lt (by cases x <;> simp [hx, Pc.rank])
  case call =>
    cases hl : s₁.localState
    case some l => simpa [hx, Pc.Quiet] using ((i.locals l hl).inert x).right
    case none   => exact rank_callContinuation (i.shared hl) hx h
  case setResult j t =>
    have h₁ := Config.rank_setResult h
    have h₂ := s₁.rank_goto x .finished
    cases x <;> simp only [hx, Pc.rank] at h₁ h₂ <;> omega
  case setContinuation j =>
    have h₁ := Config.rank_setContinuation h
    have h₂ := s₁.rank_goto x .finished
    cases x <;> simp only [hx, Pc.rank] at h₁ h₂ <;> omega
  all_goals contradiction

theorem rank_step (i : Inv m s₁) (h : m.system.step s₁ a = some s₂) : s₂.rank < s₁.rank := by
  cases a
  case attach => exact rank_attach i h
  case fulfil => exact rank_fulfil h
  case step   => exact rank_slot i h

theorem rank_init : m.init.rank ≤ 27 * n + 5 := by
  have hzero (s : Config n ε α ξ) (h₁ : ∀ x, s.pc x = .idle) (h₂ : ∀ x, s.promise x = none)
      (h₃ : s.attached = 0) (h₄ : s.called = 0) : s.rank = 27 * n := by
    have hp (x : Slot n) : promiseRank x (none : Option (Fate ε α)) = 0 := by cases x <;> rfl
    simp only [Config.rank, h₁, h₂, h₃, h₄, hp]
    simp [Pc.rank]
    omega
  simp only [Setup.init]
  cases m.initial
  case localState r e =>
    refine (hzero _ ?_ ?_ ?_ ?_).trans_le (by omega) <;> simp [Config.adopt]
  case sharedState fate early e =>
    refine (Config.rank_share _ (.future 0) fate early e).trans ?_
    rw [hzero _ (fun _ => rfl) (fun _ => rfl) rfl rfl]
    rfl

-- A state that is on the way to its continuation has a next step.
theorem dispatching_enabled (h : Shared m s) (hd : (s.pc x).Dispatching (s.state x).executor_) :
    m.stepSlot s x true true ≠ none := by
  intro hn
  cases hx : s.pc x <;> simp only [hx, Pc.Dispatching] at hd <;> simp only [hx, Setup.stepSlot] at hn
  case schedule => split at hn <;> contradiction
  case submit =>
    obtain ⟨e, he⟩ := Option.isSome_iff_exists.mp hd
    simp [FutureState.submission, he] at hn
  case queued => contradiction
  case call =>
    obtain ⟨j, _, _, _, hk, _⟩ | ⟨j, _, _, _, hk, _⟩ := h.at_call hx <;>
      simp only [Setup.callContinuation, hk] at hn
    case inl =>
      split at hn
      case h_3 => split at hn <;> contradiction
      all_goals contradiction
    case inr => contradiction

-- When no step is left, all callbacks have been attached.
theorem attached_of_quiescent (i : Inv m s) (hq : m.system.Quiescent s) : s.attached = Fin.last n := by
  by_contra hne
  have hlt : s.attached < n := Fin.val_lt_last hne
  have h : m.attach s none = none := hq (.attach none)
  simp only [Setup.attach, hlt, dite_true, Config.via] at h
  cases hl : s.localState <;> simp only [hl] at h
  case some l => contradiction
  case none =>
    rw [thenShared_eq ((i.shared hl).free _ (Nat.le_refl _))] at h
    contradiction

theorem ready_of_quiescent (h : Shared m s) (hq : m.system.Quiescent s) (hc : s.CarryAt x t) :
    (s.state x).hasResult = true ∧ (s.state x).try_value_ = t ∧ (s.state x).hasContinuation = false := by
  have hpromise : s.promise x = none := by
    cases hx : s.promise x
    case none => rfl
    case some fate =>
      have hn : Setup.fulfil s x = none := hq (.fulfil x)
      rw [fulfil_eq hx (h.phase.fulfil hx).left] at hn
      contradiction
  have hd : ¬ (s.pc x).Dispatching (s.state x).executor_ := fun hd =>
    dispatching_enabled h hd (hq (.step x true true))
  rw [Config.CarryAt, hpromise] at hc
  cases hc
  case ready h₁ h₂ h₃ _ => exact ⟨h₁, h₂, h₃⟩
  case done h           => exact absurd h hd

-- The last future has got its result then.
theorem result_of_quiescent (i : Inv m s) (hq : m.system.Quiescent s) :
    s.result = some (m.value s.attached) ∧ s.called = s.attached := by
  cases hl : s.localState
  case some l => simp [Config.result, hl, (i.locals l hl).value, (i.locals l hl).called]
  case none =>
    have hs := i.shared hl
    have hph := hs.phase
    generalize hd : s.called = d at hph
    cases hph
    case future hc _ =>
      obtain ⟨hr, hv, hk⟩ := ready_of_quiescent hs hq hc
      have heq : d = s.attached := by
        by_contra hne
        have hlt : d < s.attached := lt_of_le_of_ne (hd ▸ hs.le) hne
        have hdn : d.val < n := by omega
        have := (hs.waiting ⟨d, hdn⟩ (hd ▸ Nat.le_refl _) hlt).left
        exact absurd (hk.symm.trans this) (by simp)
      subst heq
      simp [Config.result, hl, hr, hv]
    case settle x j _ hx _ _ _ =>
      have hn : m.stepSlot s x true true = none := hq (.step x true true)
      simp only [Setup.stepSlot, hx, Config.setResult_eq (hs.setResult hx).left] at hn
      contradiction
    case attach j _ hx _ _ _ _ =>
      have hn : m.stepSlot s _ true true = none := hq (.step (.future j.castSucc) true true)
      obtain ⟨_, _, hsome, _⟩ := hs.setContinuation hx
      simp only [Setup.stepSlot, hx, hsome] at hn
      contradiction
    case relay hc hk _ _ =>
      have := (ready_of_quiescent hs hq hc).2.2
      simp [hk] at this

-- What the last future has got is what is expected.
theorem result_eq (i : Inv m s) (hr : s.result = some t) : t = m.value s.attached ∧ s.called = s.attached := by
  cases hl : s.localState
  case some l =>
    simp only [Config.result, hl, Option.some.injEq] at hr
    exact ⟨hr ▸ (i.locals l hl).value, (i.locals l hl).called⟩
  case none =>
    have hs := i.shared hl
    simp only [Config.result, hl] at hr
    split at hr <;> cases hr
    case isTrue hr =>
      have heq : s.called = s.attached := by
        by_contra hne
        simp [hs.result _ (lt_of_le_of_ne hs.le hne)] at hr
      obtain ⟨hc, _⟩ := hs.phase.of_hasResult (heq ▸ hr)
      rw [heq] at hc
      refine ⟨?_, heq⟩
      cases hp : s.promise (.future s.attached) <;> rw [Config.CarryAt, hp] at hc
      case none =>
        cases hc
        case ready h _ _ => exact h
        case done h _ _  => exact h
      case some => simp [hc.of_promise.2.1] at hr

theorem expectedLog_prefix (m : Setup n ε α ξ) (p : Nat) :
    m.expectedLog p <+: evalLog m.unit 0 (List.ofFn m.callbacks) m.initial.outcome := by
  have h := List.take_append_drop p (List.ofFn m.callbacks)
  rw [← h, evalLog_append]
  exact List.prefix_append ..

-- The callbacks are invoked in the order of the chain, each at most once. Once all of them have been
-- attached, the result of the last future is that of their evaluation from left to right, and so are
-- the callbacks that have been invoked. This result is reached in each run.
theorem evaluates_chain (h : m.system.Reachable s) :
    (s.log.Pairwise (· < ·)) ∧
    (s.log <+: evalLog m.unit 0 (List.ofFn m.callbacks) m.initial.outcome) ∧
    (∀ t, s.attached = Fin.last n → s.result = some t →
      t = .makeTryCall (evalChain m.unit (List.ofFn m.callbacks) m.initial.outcome) ∧
      s.log = evalLog m.unit 0 (List.ofFn m.callbacks) m.initial.outcome) ∧
    (m.system.Quiescent s → s.attached = Fin.last n ∧ s.result.isSome) ∧
    (∀ k, m.system.Steps k s → k ≤ 27 * n + 5) := by
  have i := Inv.reachable h
  have hprefix : s.log <+: evalLog m.unit 0 (List.ofFn m.callbacks) m.initial.outcome :=
    i.log ▸ expectedLog_prefix m s.called
  have hall : (List.ofFn m.callbacks).take n = List.ofFn m.callbacks := List.take_of_length_le (by simp)
  refine ⟨evalLog_sorted.sublist hprefix.sublist, hprefix, fun t hl hr => ?result, fun hq => ?quiescent,
    fun k hk => ?bound⟩
  case result =>
    obtain ⟨ht, hc⟩ := result_eq i hr
    rw [hl] at ht hc
    refine ⟨?_, ?_⟩
    · rw [ht, Setup.value, Fin.val_last, Setup.expected, hall]
    · rw [i.log, hc, Fin.val_last, Setup.expectedLog, hall]
  case quiescent =>
    refine ⟨attached_of_quiescent i hq, ?_⟩
    rw [(result_of_quiescent i hq).left]
    rfl
  case bound =>
    have := hk.length_le (μ := Config.rank) fun hr hs => rank_step (.reachable hr) hs
    have := rank_init (m := m)
    simp only [Setup.system] at *
    omega

def relaySetup : Setup 2 Unit Nat Unit where
  unit      := 0
  initial   := .sharedState (.fulfilled (.ok 7)) false none
  callbacks := fun j =>
    if j.val = 0 then
      .thenValue (.future fun v => .ok (.sharedState (.fulfilled (.ok (v + 10))) false none))
    else
      .thenTry (.value fun t => t.getValue.map (· + 100))

-- The promise of the future that callback 0 returns is only used after callback 1 has been attached,
-- which is then run by an executor.
def relayRun (future : Fin 3 → Slot 2) (returned : Slot 2) (zero one : Fin 3) : List (Action 2 Unit) :=
  [.attach none, .fulfil (future zero)] ++ List.replicate 3 (.step (future zero) false true) ++
  [.attach (some (some ())), .fulfil returned] ++ List.replicate 3 (.step returned false true) ++
  List.replicate 5 (.step (future one) false true)

theorem evaluates_chain_relay :
    ∃ s : Config 2 Unit Nat Unit, s.result = some (.value 117) ∧ s.log = [0, 1] ∧
      s.log.Pairwise (· < ·) := by
  obtain ⟨s, hr, hs⟩ := relaySetup.system.exists_reachable (relayRun .future (.returned 0) 0 1)
    (p := fun s => s.result = some (.value 117) ∧ s.log = [0, 1]) (by decide)
  simp only [Bool.decide_and, Bool.and_eq_true, decide_eq_true_eq] at hs
  exact ⟨s, hs.left, hs.right, (evaluates_chain hr).left⟩

end Chain
end AsyncSimple
