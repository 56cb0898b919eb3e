import AsyncSimple.Lib.Count
import AsyncSimple.Coro.Ownership

open Transition

namespace AsyncSimple
namespace Ownership

variable {ξ κ : Type}

namespace Object

def weight (x : Object) (f : Nat) : Nat :=
  x.handle.toList.count f

@[simp] theorem handle_moved (x : Object) : x.moved.handle = none := by cases x <;> rfl

end Object

namespace Config

def owners (s : Config ξ κ) (f : Nat) : Nat :=
  s.objects.countP (·.handle = some f)

-- The owners of a coroutine frame, and its destructions.
def total (s : Config ξ κ) (f : Nat) : Nat :=
  s.owners f + (s.frames f).destroyed

-- The frame whose handle an action drops: there is no destructor for a `RescheduleLazy` to destroy
-- its coroutine, and move assignment does not destroy that of the awaiter it overwrites.
def dropped (s : Config ξ κ) : Action ξ κ → Option Nat
  | .destroy this =>
    match s.objects[this]? with
    | some (.owner .rescheduleLazy coro_) => coro_
    | _                                   => none
  | .moveAssign this other =>
    match s.objects[this]? with
    | some (.awaiter _ _ handle) => if this = other then none else handle
    | _                          => none
  | _ => none

end Config

-- Every coroutine frame has at most one owner, is destroyed at most once, and is destroyed exactly
-- if it has no owner any more.
structure Linear (s : Config ξ κ) : Prop where
  owners    : ∀ f < s.fresh, s.owners f ≤ 1
  destroyed : ∀ f < s.fresh, (s.frames f).destroyed = if s.owners f = 0 then 1 else 0

section Total

variable {s s₁ s₂ : Config ξ κ} {x y : Object}

theorem weight_eq : (if x.handle = some f then 1 else 0) = x.weight f := by
  cases h : x.handle <;> simp [Object.weight, h, List.count_singleton]

theorem owners_add : (s.add x).owners f = s.owners f + x.weight f := by
  simp [Config.owners, Config.add, ← weight_eq, List.countP_append, List.countP_singleton]

theorem owners_set (y : Object) (f : Nat) (h : s.objects[i]? = some x) :
    (s.set i y).owners f + x.weight f = s.owners f + y.weight f := by
  have := Count.countP_set (p := (·.handle = some f)) y h
  simpa only [Config.owners, Config.set, ← weight_eq, decide_eq_true_eq] using this

theorem total_add : (s.add x).total f = s.total f + x.weight f := by
  have := owners_add (s := s) (x := x) (f := f)
  simp only [Config.total, Config.add] at this ⊢
  omega

theorem total_set (y : Object) (f : Nat) (h : s.objects[i]? = some x) :
    (s.set i y).total f + x.weight f = s.total f + y.weight f := by
  have := owners_set y f h
  simp only [Config.total, Config.set] at this ⊢
  omega

-- What a member function changes in a promise is neither an owner nor a destruction.
theorem total_setFrame (frame : Frame ξ κ) (f : Nat) (h : frame.destroyed = (s.frames g).destroyed) :
    (s.setFrame g frame).total f = s.total f := by
  by_cases hf : f = g
  · subst hf
    simp [Config.total, Config.owners, Config.setFrame, h]
  · simp [Config.total, Config.owners, Config.setFrame, Function.update_of_ne hf]

theorem total_destroyFrame : (s.destroyFrame g).total f = s.total f + if g = f then 1 else 0 := by
  by_cases hf : f = g
  · subst hf
    simp [Config.total, Config.owners, Config.destroyFrame, Config.setFrame]
    omega
  · simp [Config.total, Config.owners, Config.destroyFrame, Config.setFrame, Function.update_of_ne hf,
      Ne.symm hf]

end Total

-- The owners of the frames are as many as before, except for those that are replaced by a destruction.
structure Kept (s₁ s₂ : Config ξ κ) : Prop where
  total : ∀ f, s₂.total f = s₁.total f
  fresh : s₂.fresh = s₁.fresh

variable {s s₁ s₂ s₃ : Config ξ κ}

namespace Kept

theorem rfl : Kept s s := ⟨fun _ => by rfl, by rfl⟩

theorem trans (h₁ : Kept s₁ s₂) (h₂ : Kept s₂ s₃) : Kept s₁ s₃ :=
  ⟨fun f => (h₂.total f).trans (h₁.total f), h₂.fresh.trans h₁.fresh⟩

theorem setFrame {frame : Frame ξ κ} (h : frame.destroyed = (s.frames g).destroyed) :
    Kept s (s.setFrame g frame) :=
  ⟨fun f => total_setFrame frame f h, by rfl⟩

-- An object hands its coroutine over to a new one.
theorem exchange {y z : Object} (hx : s.objects[i]? = some x) (hy : y.handle = none)
    (hz : z.handle = x.handle) : Kept s ((s.set i y).add z) := by
  refine ⟨fun f => ?_, by rfl⟩
  have := total_set y f hx
  simp only [total_add, Object.weight, hy, hz, Option.toList_none, List.count_nil] at this ⊢
  omega

-- An object destroys its coroutine.
theorem release {y : Object} (hx : s.objects[i]? = some x) (hf : x.handle = some g)
    (hy : y.handle = none) : Kept s ((s.destroyFrame g).set i y) := by
  refine ⟨fun f => ?_, by rfl⟩
  have := total_set (s := s.destroyFrame g) y f hx
  simp only [total_destroyFrame, Object.weight, hf, hy, Option.toList_some, Option.toList_none,
    List.count_singleton, List.count_nil, beq_iff_eq] at this
  omega

theorem moveConstruct (h : s₁.moveConstruct other = some s₂) : Kept s₁ s₂ := by
  simp only [Config.moveConstruct] at h
  split at h <;> cases h
  case h_3 hx => exact exchange hx (by simp) (by rfl)

theorem await (h : s₁.await this isTry = some s₂) : Kept s₁ s₂ := by
  simp only [Config.await] at h
  split at h <;> cases h
  case h_1 hx => exact exchange hx (by rfl) (by rfl)

theorem rebind {make : Option Nat → Object} (h : s₁.rebind this executor make = some s₂)
    (hm : ∀ coro_, (make coro_).handle = coro_) : Kept s₁ s₂ := by
  simp only [Config.rebind] at h
  split at h <;> cases h
  case h_1 f hx =>
    refine trans (setFrame (g := f) (by rfl)) (exchange (x := .owner .lazy (some f)) hx (by rfl) ?_)
    exact hm _
  case h_2 => exact rfl

theorem awaitOn (h : s₁.awaitOn this executor = some s₂) : Kept s₁ s₂ := by
  simp only [Config.awaitOn] at h
  split at h
  case h_1 => exact trans (setFrame (by rfl)) (await h)
  case h_2 => contradiction

theorem inherit (h : s₁.inherit this executor = some s₂) : Kept s₁ s₂ := by
  simp only [Config.inherit] at h
  split at h <;> cases h
  case h_1 => exact setFrame (by rfl)

theorem awaitSuspend (h : s₁.awaitSuspend this continuation accepted = some s₂) : Kept s₁ s₂ := by
  simp only [Config.awaitSuspend] at h
  split at h
  case h_2 => contradiction
  case h_1 =>
    split at h
    case h_1 =>
      cases h
      exact trans (setFrame (by rfl)) (setFrame (by rfl))
    case h_2 =>
      split at h <;> cases h
      case isTrue  => exact trans (setFrame (by rfl)) (setFrame (by rfl))
      case isFalse => exact setFrame (by rfl)

theorem runTask (h : s₁.runTask frame = some s₂) : Kept s₁ s₂ := by
  simp only [Config.runTask] at h
  split at h <;> cases h
  exact setFrame (by rfl)

theorem finish (h : s₁.finish frame throws = some s₂) : Kept s₁ s₂ := by
  simp only [Config.finish] at h
  split at h <;> cases h
  exact setFrame (by rfl)

theorem awaitResume (h : s₁.awaitResume this throws = some s₂) : Kept s₁ s₂ := by
  simp only [Config.awaitResume] at h
  split at h
  case h_2 => contradiction
  case h_1 hx =>
    split at h
    case h_1 => exact Option.some.inj h ▸ rfl
    case h_2 =>
      split at h <;> cases h
      case isTrue  => exact rfl
      case isFalse => exact release hx (by rfl) (by rfl)
    case h_3 => contradiction

theorem awaitResumeTry (h : s₁.awaitResumeTry this = some s₂) : Kept s₁ s₂ := by
  simp only [Config.awaitResumeTry] at h
  split at h
  case h_2 => contradiction
  case h_1 hx =>
    split at h <;> cases h
    all_goals exact release hx (by rfl) (by rfl)

theorem start (h : s₁.start this continuation accepted = some s₂) : Kept s₁ s₂ := by
  simp only [Config.start, Option.bind_eq_bind, Option.bind_eq_some_iff] at h
  obtain ⟨_, h₁, _, h₂, _, h₃, h₄⟩ := h
  exact (moveConstruct h₁).trans <| (moveConstruct h₂).trans <| (await h₃).trans (awaitSuspend h₄)

end Kept

-- An object that has no coroutine, or that drops it.
theorem total_drop {y : Object} (hx : s.objects[i]? = some x) (hy : y.handle = none) (f : Nat) :
    (s.set i y).total f + x.weight f = s.total f := by
  have := total_set y f hx
  simpa [Object.weight, hy] using this

theorem destroy_total (h : s₁.destroy this = some s₂) (f : Nat) :
    s₂.total f + (s₁.dropped (.destroy this)).toList.count f = s₁.total f := by
  simp only [Config.destroy] at h
  simp only [Config.dropped]
  split at h <;> cases h
  case h_1 hx => simpa [hx] using (Kept.release hx rfl rfl).total f
  case h_2 hx => simpa [hx, Object.weight, Object.handle] using total_drop hx (y := .destroyed) rfl f
  case h_3 hx => simpa [hx, Object.weight, Object.handle] using total_drop hx (y := .destroyed) rfl f
  case h_4 hx => simpa [hx] using (Kept.release hx rfl rfl).total f
  case h_5 hx => simpa [hx, Object.weight, Object.handle] using total_drop hx (y := .destroyed) rfl f

-- Move assignment drops the coroutine of an awaiter that it overwrites by another one.
theorem moveAssign_total (h : s₁.moveAssign this other = some s₂) (f : Nat) :
    s₂.total f + (s₁.dropped (.moveAssign this other)).toList.count f = s₁.total f := by
  simp only [Config.moveAssign] at h
  simp only [Config.dropped]
  split at h
  case h_2 => contradiction
  case h_1 kind isTry old _ _ handle hx hy =>
    split at h <;> cases h
    case isTrue hk =>
      obtain ⟨rfl, rfl⟩ := hk
      have h₁ := total_drop (y := .awaiter kind isTry none) hy rfl f
      by_cases hne : this = other
      case pos =>
        subst hne
        have hi := (List.getElem?_eq_some_iff.mp hy).choose
        have h₂ := total_set (s := s₁.set this (.awaiter kind isTry none)) (.awaiter kind isTry handle) f
          (List.getElem?_set_self hi)
        simp [Object.weight, Object.handle, hx] at h₁ h₂ ⊢
        omega
      case neg =>
        have hx' : (s₁.set other (.awaiter kind isTry none)).objects[this]? = _ :=
          (List.getElem?_set_ne (Ne.symm hne)).trans hx
        have h₂ := total_set (.awaiter kind isTry handle) f hx'
        simp [Object.weight, Object.handle, hx, hne] at h₁ h₂ ⊢
        omega

theorem destroy_fresh (h : s₁.destroy this = some s₂) : s₂.fresh = s₁.fresh := by
  simp only [Config.destroy] at h
  split at h <;> cases h <;> rfl

theorem moveAssign_fresh (h : s₁.moveAssign this other = some s₂) : s₂.fresh = s₁.fresh := by
  simp only [Config.moveAssign] at h
  split at h
  case h_1 =>
    split at h <;> cases h
    rfl
  case h_2 => contradiction

-- Beside a run, the frames whose handles have been dropped.
def recorded : System (Config ξ κ × List Nat) (Action ξ κ) :=
  system.record [] fun s a _ lost => lost ++ (s.dropped a).toList

-- Every frame that has been created has an owner, or it has been destroyed, or its handle has been
-- dropped.
structure Inv (s : Config ξ κ) (lost : List Nat) : Prop where
  total : ∀ f, s.total f + lost.count f = if f < s.fresh then 1 else 0

namespace Inv

theorem init : Inv (system : System (Config ξ κ) (Action ξ κ)).init [] where
  total _ := by simp [system, Config.total, Config.owners]

theorem kept (i : Inv s₁ lost) (h : Kept s₁ s₂) : Inv s₂ lost where
  total f := by rw [h.total, h.fresh, i.total]

theorem create (i : Inv s lost) : Inv s.create lost where
  total f := by
    have hf := i.total s.fresh
    have hd : (s.frames s.fresh).destroyed = 0 := by
      simp only [Config.total, Nat.lt_irrefl, if_false] at hf
      omega
    have ht : s.create.total f = s.total f + (Object.owner .lazy (some s.fresh)).weight f := by
      rw [← total_setFrame ⟨none, none, .initial, 0⟩ f hd.symm]
      exact total_add
    have := i.total f
    have hs : s.create.fresh = s.fresh + 1 := rfl
    simp only [Object.weight, Object.handle, Option.toList_some, List.count_singleton, beq_iff_eq] at ht
    rw [hs]
    split at ht <;> split at this <;> split <;> omega

theorem step (i : Inv s₁ lost) (h : system.step s₁ act = some s₂) :
    Inv s₂ (lost ++ (s₁.dropped act).toList) := by
  have hk (hk : Kept s₁ s₂) (hd : s₁.dropped act = none) :
      Inv s₂ (lost ++ (s₁.dropped act).toList) := by
    simpa [hd] using i.kept hk
  have hd (ht : ∀ f, s₂.total f + (s₁.dropped act).toList.count f = s₁.total f)
      (hf : s₂.fresh = s₁.fresh) : Inv s₂ (lost ++ (s₁.dropped act).toList) := by
    refine ⟨fun f => ?_⟩
    rw [hf, ← i.total f, ← ht f, List.count_append]
    omega
  cases act <;> simp only [system, Config.step, Config.via, Config.setExecutor] at h
  case create         =>
    cases h
    simpa [Config.dropped] using i.create
  case moveConstruct  => exact hk (.moveConstruct h) rfl
  case moveAssign     => exact hd (moveAssign_total h) (moveAssign_fresh h)
  case via            => exact hk (.rebind h fun _ => rfl) rfl
  case setExecutor    => exact hk (.rebind h fun _ => rfl) rfl
  case coAwait        => exact hk (.await h) rfl
  case coAwaitOn      => exact hk (.awaitOn h) rfl
  case coAwaitTry     => exact hk (.await h) rfl
  case inherit        => exact hk (.inherit h) rfl
  case awaitSuspend   => exact hk (.awaitSuspend h) rfl
  case runTask        => exact hk (.runTask h) rfl
  case finish         => exact hk (.finish h) rfl
  case awaitResume    => exact hk (.awaitResume h) rfl
  case awaitResumeTry => exact hk (.awaitResumeTry h) rfl
  case start          => exact hk (.start h) rfl
  case destroy        => exact hd (destroy_total h) (destroy_fresh h)

theorem reachable (h : recorded.Reachable (s, lost)) : Inv s lost := by
  refine h.invariant (S := recorded) (I := fun s => Inv s.1 s.2) init fun i hs => ?_
  obtain ⟨hs, e⟩ := System.record_step.mp hs
  exact e ▸ i.step hs

end Inv

-- In any run, no frame has two owners, or is destroyed while it has one, or is destroyed twice.
theorem total_le (h : recorded.Reachable (s, lost)) (f : Nat) : s.total f ≤ 1 := by
  have := (Inv.reachable h).total f
  split at this <;> omega

-- The coroutine frames are owned linearly exactly as long as no handle has been dropped.
theorem frames_owned (h : recorded.Reachable (s, lost)) : Linear s ↔ lost = [] := by
  have i := Inv.reachable h
  constructor
  · intro hl
    by_contra hn
    obtain ⟨f, hf⟩ := List.exists_mem_of_ne_nil lost hn
    have hc := List.count_pos_iff.mpr hf
    have ht := i.total f
    split at ht
    case isFalse => omega
    case isTrue hf =>
      have hd := hl.destroyed f hf
      simp only [Config.total] at ht
      rw [if_pos (by omega)] at hd
      omega
  · rintro rfl
    have ht (f : Nat) (hf : f < s.fresh) : s.owners f + (s.frames f).destroyed = 1 := by
      simpa [Config.total, hf] using i.total f
    refine ⟨fun f hf => ?_, fun f hf => ?_⟩
    · have := ht f hf
      omega
    · have := ht f hf
      split <;> omega

-- A parent awaits a child, which throws, and the parent is started with `Start`. In the end, all
-- objects are destroyed.
def awaitRun : List (Action Unit Nat) :=
  [.create, .create, .moveConstruct 0, .start 2 0 true, .coAwait 1, .awaitSuspend 6 1 true,
    .finish 1 true, .awaitResume 6 false, .destroy 6, .destroy 1, .finish 0 true, .awaitResumeTry 5,
    .destroy 5, .destroy 4, .destroy 3, .destroy 2, .destroy 0]

theorem frames_owned_await :
    ∃ s : Config Unit Nat, s.fresh = 2 ∧ (∀ x ∈ s.objects, x = .destroyed) ∧ Linear s := by
  obtain ⟨⟨s, lost⟩, hr, hs⟩ := recorded.exists_reachable awaitRun
    (p := fun s : Config Unit Nat × List Nat =>
      s.1.fresh = 2 ∧ (∀ x ∈ s.1.objects, x = .destroyed) ∧ s.2 = []) (by decide)
  simp only [Bool.decide_and, Bool.and_eq_true, decide_eq_true_eq] at hs
  exact ⟨s, hs.1, hs.2.1, (frames_owned hr).mpr hs.2.2⟩

-- An awaiter is overwritten by another one.
def assignRun : List (Action Unit Nat) :=
  [.create, .create, .coAwait 0, .coAwait 1, .moveAssign 2 3, .destroy 3, .destroy 2, .destroy 1,
    .destroy 0]

-- A coroutine is bound to an executor, and never started.
def viaRun : List (Action Unit Nat) :=
  [.create, .via 0 (some ()), .destroy 1, .destroy 0]

-- The first child has a result before `CollectAny` starts the second one.
def collectRun : List (Action Unit Nat) :=
  [.create, .via 0 (some ()), .create, .via 2 (some ()), .destroy 2, .destroy 0] ++
  collectAny [1, 3] 1 (some ()) 0 ++
  [.runTask 0, .finish 0 false, .awaitResumeTry 6, .destroy 6, .destroy 5, .destroy 4]

-- After such a run there is no object left, but not every frame has been destroyed.
def Leaks (as : List (Action Unit Nat)) : Prop :=
  ∃ s, system.run system.init as = some s ∧ (∀ x ∈ s.objects, x = .destroyed) ∧ ¬ Linear s

theorem leaks_of_run {as : List (Action Unit Nat)}
    (h : (system.run system.init as).any fun s : Config Unit Nat =>
      (∀ x ∈ s.objects, x = .destroyed) ∧ ∃ f < s.fresh, (s.frames f).destroyed = 0) : Leaks as := by
  obtain ⟨s, hr, hs⟩ := Option.any_eq_true _ _ |>.mp h
  simp only [Bool.decide_and, Bool.and_eq_true, decide_eq_true_eq] at hs
  obtain ⟨ho, f, hf, hd⟩ := hs
  refine ⟨s, hr, ho, fun hl => ?_⟩
  have h₀ : s.owners f = 0 := by
    refine List.countP_eq_zero.mpr fun x hx => ?_
    simp [ho x hx, Object.handle]
  simpa [h₀, hd] using hl.destroyed f hf

theorem frames_leaked : Leaks assignRun ∧ Leaks viaRun ∧ Leaks collectRun :=
  ⟨leaks_of_run (by decide), leaks_of_run (by decide), leaks_of_run (by decide)⟩

end Ownership
end AsyncSimple
