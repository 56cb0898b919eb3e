import AsyncSimple.Sync.Theorems.SharedState

open Transition Counter

namespace AsyncSimple
namespace Handles

variable {ε α κ ξ γ : Type}

-- The number of attachments to a shared state that have been made and not been undone.
def Config.attachments (s : Config ε α κ ξ γ) (a : Nat) : Nat :=
  (s.states a).lostPromises + (s.states a).lostFutures + s.count .holder a

def FewAttachments (s : Config ε α κ ξ γ) (_ : Action ε α κ) : Prop :=
  ∀ a < s.fresh, s.attachments a < 256

instance (s : Config ε α κ ξ γ) (act : Action ε α κ) : Decidable (FewAttachments s act) :=
  inferInstanceAs (Decidable (∀ _ < _, _))

structure Inv (s : Config ε α κ ξ γ) : Prop where
  states : ∀ a, StateInv (s.states a) (s.count .holder a) (s.count .promise a) (s.count .reference a)
  unused : ∀ a, s.fresh ≤ a → s.count .holder a = 0
  fault  : s.fault ≠ some .assertFailed ∧ s.fault ≠ some .useAfterDelete

-- The move assignment of a promise overwrites one that refers to the shared state `a`.
def Overwrites (s : Config ε α κ ξ γ) (act : Action ε α κ) (a : Nat) : Prop :=
  ∃ this other has_future_, act = .moveAssign this other ∧ this ≠ other ∧
    s.handles[this]? = some (.promise (some a) has_future_)

-- What a step does to the shared states and to the numbers of handles that refer to them.
inductive Effect (s₁ : Config ε α κ ξ γ) (act : Action ε α κ) (s₂ : Config ε α κ ξ γ) : Prop
  | skip (states : s₂.states = s₁.states) (fresh : s₂.fresh = s₁.fresh)
      (fault : s₂.fault = s₁.fault ∨ s₂.fault = some .nullDereference)
      (count : ∀ k a, s₂.count k a = s₁.count k a)
  | new (eq : s₂ = s₁.newPromise)
  | call (a : Nat) (fs : SharedState ε α κ ξ γ) (states : s₂.states = Function.update s₁.states a fs)
      (fresh : s₂.fresh = s₁.fresh) (fault : s₂.fault = s₁.fault) (live : 0 < s₁.count .holder a)
      (count : ∀ k b, b ≠ a → s₂.count k b = s₁.count k b)
      (step : StateStep (s₁.states a) (s₁.count .holder a) (s₁.count .promise a)
        (s₁.count .reference a) fs (s₂.count .holder a) (s₂.count .promise a) (s₂.count .reference a))
      (lost : fs.lostPromises = (s₁.states a).lostPromises ∨ Overwrites s₁ act a)

variable {s s₁ s₂ : Config ε α κ ξ γ} {act : Action ε α κ}

theorem Config.weight_le_count {i : Nat} (h : s.handles[i]? = some x) (k : Kind) (a : Nat) :
    x.weight k a ≤ s.count k a := by
  simp only [Handle.weight]
  split
  case isTrue hx => exact List.countP_pos_iff.mpr ⟨x, List.mem_of_getElem? h, by simpa using hx⟩
  case isFalse   => exact Nat.zero_le _

-- A step that changes one shared state, where `v` are the references to it that are given up, and `w`
-- those that are created.
theorem Effect.of_count {v w : Kind → Nat → Nat} (a : Nat) (fs : SharedState ε α κ ξ γ)
    (states : s₂.states = Function.update s₁.states a fs) (fresh : s₂.fresh = s₁.fresh)
    (fault : s₂.fault = s₁.fault) (live : 0 < s₁.count .holder a)
    (hc : ∀ k b, s₂.count k b + v k b = s₁.count k b + w k b) (hv : ∀ k b, v k b ≤ s₁.count k b)
    (hb : ∀ k b, b ≠ a → v k b = w k b)
    (step : ∀ h p r, StateStep (s₁.states a) (h + v .holder a) (p + v .promise a)
      (r + v .reference a) fs (h + w .holder a) (p + w .promise a) (r + w .reference a))
    (lost : fs.lostPromises = (s₁.states a).lostPromises ∨ Overwrites s₁ act a) :
    Effect s₁ act s₂ := by
  refine .call a fs states fresh fault live (fun k b hne => ?_) ?_ lost
  · have := hc k b
    have := hb k b hne
    omega
  · have h₁ (k : Kind) : s₁.count k a = s₁.count k a - v k a + v k a := by
      have := hv k a
      omega
    have h₂ (k : Kind) : s₂.count k a = s₁.count k a - v k a + w k a := by
      have := hv k a
      have := hc k a
      omega
    rw [h₁ .holder, h₁ .promise, h₁ .reference, h₂ .holder, h₂ .promise, h₂ .reference]
    exact step _ _ _

theorem Inv.live (i : Inv s) (h : 0 < s.count .holder a) : (s.states a).deleted = false ∧ a < s.fresh := by
  constructor
  · cases hd : (s.states a).deleted
    case false => rfl
    case true  => exact absurd ((i.states a).deleted hd) (by omega)
  · by_contra hn
    have := i.unused a (by omega)
    omega

theorem Inv.call_eq (i : Inv s) (ha : 0 < s.count .holder a) (hf : f (s.states a) = .ok (fs, guards)) :
    s.call a f k = k ((s.setState a fs).addGuards a guards) := by
  simp [Config.call, (i.live ha).left, hf]

theorem Config.count_pos {i : Nat} (h : s.handles[i]? = some x) (hx : x.refersTo .holder = some a) :
    0 < s.count .holder a := by
  have := weight_le_count h .holder a
  simp only [Handle.weight, hx, if_true] at this
  omega

-- A call of the member function `f`, where `v` and `w` are the references that the caller gives up
-- and creates afterwards.
theorem Effect.of_call {v w : Kind → Nat → Nat} (i : Inv s₁) (live : 0 < s₁.count .holder a)
    (hf : f (s₁.states a) = .ok (fs, guards))
    (hk : ∀ s, (k s).states = s.states ∧ (k s).fresh = s.fresh ∧ (k s).fault = s.fault)
    (hc : ∀ s l, s.handles = s₁.handles ++ l →
      ∀ K b, (k s).count K b + v K b = s.count K b + w K b)
    (hv : ∀ k b, v k b ≤ s₁.count k b) (hb : ∀ k b, b ≠ a → v k b = w k b)
    (step : ∀ h p r, StateStep (s₁.states a)
      (h + v .holder a) (p + v .promise a) (r + v .reference a) fs
      (h + w .holder a + guards) (p + w .promise a) (r + w .reference a + guards))
    (lost : fs.lostPromises = (s₁.states a).lostPromises) : Effect s₁ act (s₁.call a f k) := by
  rw [i.call_eq live hf]
  obtain ⟨h₁, h₂, h₃⟩ := hk ((s₁.setState a fs).addGuards a guards)
  refine .of_count (v := v) (w := fun k b => w k b + guards * (Handle.reference (some a)).weight k b)
    a fs h₁ h₂ h₃ live (fun k b => ?_) hv (fun k b hne => ?_) (fun h p r => ?_) (.inl lost)
  · have := hc ((s₁.setState a fs).addGuards a guards) _ rfl k b
    simp only [Config.count_addGuards, Config.count_setState] at this
    omega
  · have hr : (Handle.reference (some a)).weight k b = 0 := by
      cases k <;> simp [Handle.weight, Handle.refersTo, hne.symm]
    simp [hr, hb k b hne]
  · simpa [Handle.weight, Handle.refersTo, Nat.add_assoc] using step h p r

theorem Config.count_set_append {i : Nat} {x : Handle} (y : Handle) (k : Kind) (a : Nat)
    (hx : s₁.handles[i]? = some x) (h : s.handles = s₁.handles ++ l) :
    (s.set i y).count k a + x.weight k a = s.count k a + y.weight k a := by
  refine count_set y k a ?_
  rw [h, List.getElem?_append_left (List.getElem?_eq_some_iff.mp hx).choose, hx]

-- The handle `x` is replaced by `y` after the call.
theorem Effect.of_replace {j : Nat} {x : Handle} (y : Handle) (i : Inv s₁)
    (hx : s₁.handles[j]? = some x) (live : 0 < s₁.count .holder a)
    (hb : ∀ k b, b ≠ a → x.weight k b = y.weight k b) (hf : f (s₁.states a) = .ok (fs, guards))
    (step : ∀ h p r, StateStep (s₁.states a)
      (h + x.weight .holder a) (p + x.weight .promise a) (r + x.weight .reference a) fs
      (h + y.weight .holder a + guards) (p + y.weight .promise a) (r + y.weight .reference a + guards))
    (lost : fs.lostPromises = (s₁.states a).lostPromises) :
    Effect s₁ act (s₁.call a f (·.set j y)) :=
  .of_call i live hf (fun _ => ⟨rfl, rfl, rfl⟩) (fun _ _ h k b => Config.count_set_append y k b hx h)
    (Config.weight_le_count hx) hb step lost

-- The handle `y` is created after the call.
theorem Effect.of_add (y : Handle) (i : Inv s₁) (live : 0 < s₁.count .holder a)
    (hb : ∀ k b, b ≠ a → y.weight k b = 0) (hf : f (s₁.states a) = .ok (fs, 0))
    (step : ∀ h p r, StateStep (s₁.states a) h p r fs
      (h + y.weight .holder a) (p + y.weight .promise a) (r + y.weight .reference a))
    (lost : fs.lostPromises = (s₁.states a).lostPromises) :
    Effect s₁ act (s₁.call a f (·.add y)) :=
  .of_call (v := fun _ _ => 0) (w := y.weight) i live hf (fun _ => ⟨rfl, rfl, rfl⟩)
    (fun _ _ _ _ _ => Config.count_add) (fun _ _ => Nat.zero_le _) (fun k b h => (hb k b h).symm)
    step lost

-- Nothing but guards is created by the call.
theorem Effect.of_guards (i : Inv s₁) (live : 0 < s₁.count .holder a)
    (hf : f (s₁.states a) = .ok (fs, guards))
    (step : ∀ h p r, StateStep (s₁.states a) h p r fs (h + guards) p (r + guards))
    (lost : fs.lostPromises = (s₁.states a).lostPromises) :
    Effect s₁ act (s₁.call a f id) :=
  .of_call (v := fun _ _ => 0) (w := fun _ _ => 0) i live hf (fun _ => ⟨rfl, rfl, rfl⟩)
    (fun _ _ _ _ _ => rfl) (fun _ _ => Nat.zero_le _) (fun _ _ _ => rfl) step lost

-- The references of a handle to other states than its own.
theorem Handle.weight_ne {x : Handle} (h : ∀ k b, x.refersTo k = some b → b = a) (k : Kind) (b : Nat)
    (hne : b ≠ a) : x.weight k b = 0 := by
  simp only [Handle.weight, ite_eq_right_iff]
  exact fun hx => absurd (h k b hx) hne

@[simp]
theorem Handle.weight_of_ne_promise (h : b ≠ a) : (promise (some a) hf).weight k b = 0 :=
  weight_ne (fun k b => by cases k <;> simp [refersTo, eq_comm]) k b h

@[simp]
theorem Handle.weight_of_ne_detaching (h : b ≠ a) : (detaching a next).weight k b = 0 :=
  weight_ne (fun k b => by cases k <;> simp [refersTo, eq_comm]) k b h

@[simp]
theorem Handle.weight_of_ne_future (h : b ≠ a) : (future (some a)).weight k b = 0 :=
  weight_ne (fun k b => by cases k <;> simp [refersTo, eq_comm]) k b h

@[simp]
theorem Handle.weight_of_ne_reference (h : b ≠ a) : (reference (some a)).weight k b = 0 :=
  weight_ne (fun k b => by cases k <;> simp [refersTo, eq_comm]) k b h

@[simp]
theorem Handle.weight_destroyed : destroyed.weight k b = 0 := rfl

@[simp]
theorem Handle.weight_copying : (copying other).weight k b = 0 := rfl

@[simp]
theorem Next.weight_handle (next : Next) : next.handle.weight k b = 0 := by
  cases next <;> rfl

@[simp]
theorem Handle.weight_promise_none : (promise none hf).weight k b = 0 := by
  cases k <;> rfl

@[simp]
theorem Handle.weight_future_none : (future none).weight k b = 0 := by
  cases k <;> rfl

@[simp]
theorem Handle.weight_reference_none : (reference none).weight k b = 0 := by
  cases k <;> rfl

-- A handle replaces one with the same references.
theorem Effect.of_set {j : Nat} {x : Handle} (y : Handle) (hx : s₁.handles[j]? = some x)
    (h : ∀ k a, x.weight k a = y.weight k a) : Effect s₁ act (s₁.set j y) := by
  refine .skip rfl rfl (.inl rfl) fun k a => ?_
  have := Config.count_set y k a hx
  have := h k a
  omega

theorem copyPromise_effect (i : Inv s₁) {k : Handle → Config ε α κ ξ γ → Config ε α κ ξ γ}
    (hk : k = (fun h s => s.add h) ∨
      ∃ this other, s₁.handles[this]? = some (.copying other) ∧ k = (fun h s => s.set this h))
    (h : s₁.copyPromise other k = some s₂) : Effect s₁ act s₂ := by
  simp only [Config.copyPromise] at h
  split at h <;> cases h
  case h_1 a hf hx =>
    have live := Config.count_pos hx rfl
    have step (h p r : Nat) : StateStep (s₁.states a) h p r (s₁.states a).attachPromise
        (h + (Handle.promise (some a) hf).weight .holder a)
        (p + (Handle.promise (some a) hf).weight .promise a)
        (r + (Handle.promise (some a) hf).weight .reference a) := by
      simpa [Handle.weight, Handle.refersTo] using StateStep.attachPromise
    obtain rfl | ⟨this, other, ht, rfl⟩ := hk
    · exact .of_add _ i live (fun _ _ h => by simp [h]) rfl step rfl
    · exact .of_replace _ i ht live (fun _ _ h => by simp [h]) rfl step rfl
  case h_2 => exact .skip rfl rfl (.inr rfl) fun _ _ => rfl

theorem FewAttachments.counted (i : Inv s) (hb : FewAttachments s act) (live : 0 < s.count .holder a) :
    Counted (s.states a) (s.count .holder a) (s.count .promise a) (s.count .reference a) ∧
      (s.states a).lostPromises + (s.states a).lostFutures + s.count .holder a < 256 :=
  ⟨(i.states a).counted (i.live live).left, hb a (i.live live).right⟩

theorem detachPromise_effect {inline : Bool} (i : Inv s₁) (hb : FewAttachments s₁ act)
    (h : s₁.detachPromise this inline next = some s₂) : Effect s₁ act s₂ := by
  simp only [Config.detachPromise] at h
  split at h <;> cases h
  case h_1 a hf hx =>
    have live := Config.count_pos hx rfl
    obtain ⟨c, hb⟩ := hb.counted i live
    have hp : (s₁.count .promise a) = s₁.count .promise a - 1 + 1 := by
      have := Config.weight_le_count hx .promise a
      simp [Handle.weight, Handle.refersTo] at this
      omega
    have hle := s₁.count_promise_le (a := a)
    rw [hp] at c
    obtain ⟨fs', guards, e⟩ := c.detachPromise (by omega) inline
    refine .of_replace _ i hx live (fun _ _ h => by simp [h]) e (fun h p r => ?_)
      (detachPromise_ok e).left.lostPromises
    simpa [Handle.weight, Handle.refersTo] using StateStep.detachPromise e
  case h_2 hx => exact .of_set _ hx (by simp)

-- The call throws, and leaves everything as it was.
theorem Effect.of_throw (i : Inv s₁) (live : 0 < s₁.count .holder a)
    (hf : f (s₁.states a) = .ok (s₁.states a, 0)) : Effect s₁ act (s₁.call a f id) := by
  rw [i.call_eq live hf]
  refine .skip ?_ rfl (.inl rfl) fun k b => ?_
  · simp [Config.addGuards, Config.setState]
  · simp [Config.count_addGuards]

-- In a move assignment, the handle `y` replaces `x`, and `z` takes its old place.
theorem Config.count_assign {this other : Nat} {x y z : Handle} (hs : s.handles = s₁.handles)
    (hne : this ≠ other) (hx : s₁.handles[this]? = some x) (hy : s₁.handles[other]? = some y)
    (hz : ∀ k b, z.weight k b = 0) (k : Kind) (b : Nat) :
    ((s.set this y).set other z).count k b + x.weight k b = s₁.count k b := by
  have hy' : (s.set this y).handles[other]? = some y := by
    simp only [set, hs, List.getElem?_set_ne hne, hy]
  have h₁ := count_set (s := s) y k b (hs ▸ hx)
  have h₂ := count_set z k b hy'
  have h₃ : s.count k b = s₁.count k b := by rw [count, hs, count]
  simp only [hz] at h₂
  omega

theorem moveAssign_effect (h : s₁.moveAssign this other = some s₂) :
    Effect s₁ (.moveAssign this other) s₂ := by
  simp only [Config.moveAssign] at h
  split at h
  case h_2 => contradiction
  case h_1 old hf shared_state_ has_future_ hx hy =>
    split at h <;> cases h
    case isTrue => exact .skip rfl rfl (.inl rfl) fun _ _ => rfl
    case isFalse hne =>
      cases old
      case none =>
        refine .skip rfl rfl (.inl rfl) fun k b => ?_
        have := Config.count_assign (s := s₁) (z := .promise none false) rfl hne hx hy (by simp) k b
        rwa [Handle.weight_promise_none] at this
      case some a =>
        refine .of_count (v := (Handle.promise (some a) hf).weight) (w := fun _ _ => 0) a _ rfl rfl rfl
          (Config.count_pos hx rfl) (Config.count_assign rfl hne hx hy (by simp))
          (Config.weight_le_count hx) (fun _ _ h => by simp [h]) (fun h p r => ?_)
          (.inr ⟨this, other, hf, rfl, hne, hx⟩)
        simpa [Handle.weight, Handle.refersTo] using StateStep.losePromise

theorem moveAssignFuture_effect (h : s₁.moveAssignFuture this other = some s₂) :
    Effect s₁ act s₂ := by
  simp only [Config.moveAssignFuture] at h
  split at h
  case h_2 => contradiction
  case h_1 old shared_state_ hx hy =>
    split at h <;> cases h
    case isTrue => exact .skip rfl rfl (.inl rfl) fun _ _ => rfl
    case isFalse hne =>
      cases old
      case none =>
        refine .skip rfl rfl (.inl rfl) fun k b => ?_
        have := Config.count_assign (s := s₁) (z := .future none) rfl hne hx hy (by simp) k b
        rwa [Handle.weight_future_none] at this
      case some a =>
        refine .of_count (v := (Handle.future (some a)).weight) (w := fun _ _ => 0) a _ rfl rfl rfl
          (Config.count_pos hx rfl) (Config.count_assign rfl hne hx hy (by simp))
          (Config.weight_le_count hx) (fun _ _ h => by simp [h]) (fun h p r => ?_) (.inl rfl)
        simpa [Handle.weight, Handle.refersTo] using StateStep.loseFuture

theorem setResult_effect {inline : Bool} (i : Inv s₁)
    (h : s₁.setResult this value inline = some s₂) : Effect s₁ act s₂ := by
  simp only [Config.setResult] at h
  split at h <;> cases h
  case h_1 a hf hx =>
    have live := Config.count_pos hx rfl
    cases e : (s₁.states a).setResult value inline
    case error =>
      exact .of_throw i live (by rw [e])
    case ok r =>
      refine .of_guards i live (by rw [e]) (fun h p r => .setResult e) (setResult_ok e).left.lostPromises
  case h_2 => exact .skip rfl rfl (.inl rfl) fun _ _ => rfl

theorem getFuture_effect (i : Inv s₁) (h : (s₁.getFuture this).map (·.toOption.getD s₁) = some s₂) :
    Effect s₁ act s₂ := by
  obtain ⟨a, hx, rfl⟩ | ⟨_, _, _, _, rfl⟩ := Config.getFuture_cases h
  · refine .of_call (v := (Handle.promise (some a) false).weight)
      (w := fun k b => (Handle.promise (some a) true).weight k b + (Handle.future (some a)).weight k b)
      i (Config.count_pos hx rfl) rfl (fun _ => ⟨rfl, rfl, rfl⟩) (fun s l h k b => ?_)
      (Config.weight_le_count hx) (fun _ _ h => by simp [h]) (fun h p r => ?_) rfl
    · have := Config.count_set_append (.promise (some a) true) k b hx h
      simp only [Config.count_add]
      omega
    · simpa [Handle.weight, Handle.refersTo] using StateStep.attachOne
  · exact .skip rfl rfl (.inl rfl) fun _ _ => rfl

theorem setContinuation_effect {inline : Bool} (i : Inv s₁)
    (h : s₁.setContinuation this func inline = some s₂) : Effect s₁ act s₂ := by
  simp only [Config.setContinuation] at h
  split at h <;> cases h
  case h_1 a hx =>
    have live := Config.count_pos hx rfl
    cases e : (s₁.states a).setContinuation func inline
    case error =>
      exact .of_throw i live (by rw [e])
    case ok r =>
      exact .of_guards i live (by rw [e]) (fun h p r => .setContinuation e)
        (setContinuation_ok e).left.lostPromises

-- The handle `x`, which holds its state but is no promise, is detached and replaced.
theorem detachOne_effect {j : Nat} {x y : Handle} (i : Inv s₁) (hb : FewAttachments s₁ act)
    (hx : s₁.handles[j]? = some x) (hxa : x.refersTo .holder = some a)
    (hxp : x.refersTo .promise = none) (hxr : x.refersTo .reference = none)
    (hxb : ∀ k b, b ≠ a → x.weight k b = 0) (hy : ∀ k b, y.weight k b = 0) :
    Effect s₁ act (s₁.call a (·.detachOne.map (·, 0)) (·.set j y)) := by
  have live := Config.count_pos hx hxa
  obtain ⟨c, hb⟩ := hb.counted i live
  have hh : s₁.count .holder a = s₁.count .holder a - 1 + 1 := by omega
  rw [hh] at c hb
  obtain ⟨fs', e, _⟩ := c.detachOne hb
  refine .of_replace y i hx live (fun k b h => by rw [hxb k b h, hy]) (by rw [e]; rfl) (fun h p r => ?_) ?_
  · rw [hy, hy, hy]
    simpa [Handle.weight, hxa, hxp, hxr] using StateStep.detachOne e
  · obtain ⟨_, _, rfl⟩ := detachOne_ok e
    rfl

theorem detachReference_effect {j : Nat} (i : Inv s₁) (hb : FewAttachments s₁ act)
    (hx : s₁.handles[j]? = some (.reference (some a))) :
    Effect s₁ act (s₁.call a (·.detachReference.map (·, 0)) (·.set j .destroyed)) := by
  have live := Config.count_pos hx rfl
  obtain ⟨c, hb⟩ := hb.counted i live
  have hh : s₁.count .holder a = s₁.count .holder a - 1 + 1 := by omega
  have hr : s₁.count .reference a = s₁.count .reference a - 1 + 1 := by
    have := Config.weight_le_count hx .reference a
    simp only [Handle.weight, Handle.refersTo, if_true] at this
    omega
  have hle := s₁.count_reference_le (a := a)
  rw [hr] at c
  rw [hh] at c hb
  obtain ⟨fs', e, _⟩ := c.detachReference (by omega) hb
  refine .of_replace _ i hx live (fun k b h => by simp [h]) (by rw [e]; rfl) (fun h p r => ?_) ?_
  · simpa [Handle.weight, Handle.refersTo] using StateStep.detachReference e
  · obtain ⟨_, _, _, rfl⟩ := detachReference_ok e
    rfl

-- Move construction leaves a handle without a shared state behind.
theorem moved_effect {j : Nat} {x y : Handle} (hx : s₁.handles[j]? = some x)
    (hy : ∀ k b, y.weight k b = 0) : Effect s₁ act ((s₁.set j y).add x) := by
  refine .skip rfl rfl (.inl rfl) fun k b => ?_
  have := Config.count_set y k b hx
  have := hy k b
  simp only [Config.count_add]
  omega

theorem step_effect (i : Inv s₁) (hb : FewAttachments s₁ act) (h : step s₁ act = some s₂) :
    Effect s₁ act s₂ := by
  cases act <;> simp only [step] at h
  case newPromise                    => exact .new (Option.some.inj h).symm
  case copyPromise                   => exact copyPromise_effect i (.inl rfl) h
  case moveAssign                    => exact moveAssign_effect h
  case destroyPromise                => exact detachPromise_effect i hb h
  case setResult                     => exact setResult_effect i h
  case getFuture                     => exact getFuture_effect i h
  case moveAssignFuture              => exact moveAssignFuture_effect h
  case setContinuation               => exact setContinuation_effect i h
  case movePromise =>
    split at h <;> cases h
    case h_1 hx => exact moved_effect hx (by simp)
  case copyAssign =>
    split at h
    case isTrue =>
      cases h
      exact .skip rfl rfl (.inl rfl) fun _ _ => rfl
    case isFalse => exact detachPromise_effect i hb h
  case detachOne =>
    split at h <;> cases h
    case h_1 hx =>
      exact detachOne_effect i hb hx rfl rfl rfl (fun _ _ h => by simp [h]) (by simp)
  case copy =>
    split at h
    case h_1 other hx => exact copyPromise_effect i (.inr ⟨_, _, hx, rfl⟩) h
    case h_2          => contradiction
  case moveFuture =>
    split at h <;> cases h
    case h_1 hx => exact moved_effect hx (by simp)
  case destroyFuture =>
    split at h <;> cases h
    case h_1 hx =>
      exact detachOne_effect i hb hx rfl rfl rfl (fun _ _ h => by simp [h]) (by simp)
    case h_2 hx => exact .of_set _ hx (by simp)
  case copyReference =>
    split at h <;> cases h
    case h_1 a hx =>
      refine .of_add _ i (Config.count_pos hx rfl) (fun _ _ h => by simp [h]) rfl (fun h p r => ?_) rfl
      simpa [Handle.weight, Handle.refersTo] using StateStep.attachReference
    case h_2 => exact .skip rfl rfl (.inl rfl) fun k b => by simp
  case moveReference =>
    split at h <;> cases h
    case h_1 hx => exact moved_effect hx (by simp)
  case destroyReference =>
    split at h <;> cases h
    case h_1 hx => exact detachReference_effect i hb hx
    case h_2 hx => exact .of_set _ hx (by simp)

theorem newPromise_count (i : Inv s) (k : Kind) (b : Nat) :
    s.newPromise.count k b =
      if b = s.fresh then (Handle.promise (some b) false).weight k b else s.count k b := by
  simp only [Config.newPromise, Config.count_add]
  change s.count k b + _ = _
  split
  case isTrue hb =>
    subst hb
    have h₁ := i.unused _ s.fresh.le_refl
    have h₂ := s.count_promise_le (a := s.fresh)
    have h₃ := s.count_reference_le (a := s.fresh)
    cases k <;> omega
  case isFalse hb => simp [hb]

namespace Inv

theorem init : Inv (system : System (Config ε α κ ξ γ) (Action ε α κ)).init where
  states _ := ⟨fun _ => ⟨.zero, .zero, .zero⟩, nofun⟩
  unused _ _ := rfl
  fault := ⟨nofun, nofun⟩

theorem effect (i : Inv s₁) (hb : FewAttachments s₁ act) (e : Effect s₁ act s₂) : Inv s₂ := by
  cases e
  case skip states fresh fault count =>
    refine ⟨fun a => ?_, fun a ha => ?_, ?_⟩
    · simp only [states, count]
      exact i.states a
    · rw [count]
      exact i.unused a (fresh ▸ ha)
    · obtain h | h := fault
      · exact h ▸ i.fault
      · simp [h]
  case new eq =>
    subst eq
    refine ⟨fun a => ?_, fun a ha => ?_, i.fault⟩
    · simp only [newPromise_count i]
      split
      case isTrue ha =>
        subst ha
        have c : Counted (.new : SharedState ε α κ ξ γ) 0 0 0 := ⟨.zero, .zero, .zero⟩
        refine ⟨fun _ => ?_, fun h => ?_⟩
        all_goals simp [Config.newPromise, Config.add, Config.setState] at *
        · simpa [Handle.weight, Handle.refersTo] using c.attachPromise
        · contradiction
      case isFalse ha =>
        simpa [Config.newPromise, Config.add, Config.setState, Function.update_of_ne ha] using i.states a
    · have hf : a ≠ s₁.fresh := by
        rintro rfl
        exact absurd ha (Nat.not_succ_le_self _)
      rw [newPromise_count i, if_neg hf]
      exact i.unused a (Nat.le_of_succ_le ha)
  case call a fs states fresh fault live count step lost =>
    obtain ⟨_, hb⟩ := hb.counted i live
    refine ⟨fun b => ?_, fun b h => ?_, fault ▸ i.fault⟩
    · by_cases hne : b = a
      · subst hne
        simp only [states, Function.update_self]
        exact step.inv (i.states b) (i.live live).left hb s₁.count_reference_le
      · simp only [states, Function.update_of_ne hne, count _ b hne]
        exact i.states b
    · have hlt := (i.live live).right
      have hne : b ≠ a := by omega
      rw [count _ b hne]
      exact i.unused b (fresh ▸ h)

theorem step (i : Inv s₁) (hb : FewAttachments s₁ act) (h : system.step s₁ act = some s₂) :
    Inv s₂ := by
  simp only [system] at h
  split at h
  case isTrue  => exact i.effect hb (step_effect i hb h)
  case isFalse => contradiction

theorem reachable (h : (system.restrict FewAttachments).Reachable s) : Inv s := by
  refine h.invariant (S := system.restrict FewAttachments) init fun i hs => ?_
  obtain ⟨hb, hs⟩ := System.restrict_step.mp hs
  exact i.step hb hs

end Inv

-- A state is never deleted while something refers to it, and no assertion fails.
structure Alive (s : Config ε α κ ξ γ) : Prop where
  deleted        : (s.states a).deleted → s.count .holder a = 0
  assertFailed   : s.fault ≠ some .assertFailed
  useAfterDelete : s.fault ≠ some .useAfterDelete

-- As long as there are fewer than 256 attachments to each state, no state is deleted prematurely.
theorem no_premature_deletion (h : (system.restrict FewAttachments).Reachable s) : Alive s :=
  have i := Inv.reachable h
  ⟨(i.states _).deleted, i.fault.left, i.fault.right⟩

-- A future with a continuation, whose promise is destroyed.
def brokenRun : List (Action Unit Nat String) :=
  [.newPromise, .getFuture 0, .setContinuation 1 "f" true, .destroyPromise 0 true, .destroyReference 2,
    .detachOne 0, .destroyFuture 1]

theorem no_premature_deletion_broken :
    ∃ s : Config Unit Nat String Unit Unit, (s.states 0).deleted ∧ Alive s := by
  obtain ⟨s, hr, hs⟩ := (system.restrict FewAttachments).exists_reachable brokenRun
    (p := fun s : Config Unit Nat String Unit Unit => (s.states 0).deleted) (by decide)
  exact ⟨s, hs, no_premature_deletion hr⟩

-- A promise and `n` copies of it.
def copies (n : Nat) : Config ε α κ ξ γ where
  states  := Function.update (fun _ => .new) 0 (SharedState.attachPromise^[n + 1] .new)
  fresh   := 1
  handles := List.replicate (n + 1) (.promise (some 0) false)
  fault   := none

variable (ε α κ ξ γ) in
theorem attachPromise_iterate (n : Nat) :
    ∃ fs : SharedState ε α κ ξ γ, SharedState.attachPromise^[n] .new = fs ∧
      Counts fs.attached_ n ∧ Counts fs.promise_ref_ n ∧ fs.deleted = false := by
  refine ⟨_, rfl, ?_⟩
  induction n
  case zero => exact ⟨.zero, .zero, rfl⟩
  case succ n ih =>
    rw [Function.iterate_succ_apply']
    exact ⟨ih.1.inc, ih.2.1.inc, ih.2.2⟩

theorem copies_reachable (n : Nat) : system.Reachable (copies n : Config ε α κ ξ γ) := by
  induction n
  case zero => exact .step .init (a := .newPromise) rfl
  case succ n ih =>
    refine ih.step (a := .copyPromise 0) ?_
    obtain ⟨fs, hfs, _, _, hd⟩ := attachPromise_iterate ε α κ ξ γ (n + 1)
    have hx : (copies n : Config ε α κ ξ γ).handles[0]? = some (.promise (some 0) false) := rfl
    have hs : (copies n : Config ε α κ ξ γ).states 0 = fs := hfs
    simp only [system, step, Config.copyPromise, hx, Config.call, hs, hd]
    simp [copies, Config.add, Config.addGuards, Config.setState, Function.iterate_succ_apply', ← hfs,
      ← List.replicate_succ']

-- When the counter has wrapped around to 1, destroying one promise deletes the state of the others.
theorem destroy_copy (n : Nat) (hn : BitVec.ofNat 8 (n + 1) = 1) (hp : 0 < n) (hb : n + 1 < 2 ^ 64) :
    ∃ s : Config ε α κ ξ γ, system.Reachable s ∧ (s.states 0).deleted ∧ s.count .holder 0 = n := by
  obtain ⟨fs, hfs, ha, hp', hd⟩ := attachPromise_iterate ε α κ ξ γ (n + 1)
  have hx : (copies n : Config ε α κ ξ γ).handles[0]? = some (.promise (some 0) false) := rfl
  have hs : (copies n : Config ε α κ ξ γ).states 0 = fs := hfs
  have ha : fs.attached_ = 1 := ha.trans hn
  have h₁ : fs.promise_ref_ ≥ 1 := hp'.one_le hb
  have h₂ : fs.promise_ref_ ≠ 1 := fun h => absurd ((hp'.eq_one_iff hb).mp h) hp.ne'
  let fs₁ := { fs with promise_ref_ := fs.promise_ref_ - 1 }
  have hf₁ : fs.detachPromise true = .ok (fs₁, 0) := by
    simp only [SharedState.detachPromise, if_pos h₁, h₂, decide_false, Bool.and_false]
    rfl
  let fs₂ := { fs₁ with attached_ := fs.attached_ - 1, deleted := decide (fs.attached_ = 1) }
  have hf₂ : fs₁.detachOne = .ok fs₂ := if_pos (show fs.attached_ ≥ 1 by rw [ha]; decide)
  let s₁ : Config ε α κ ξ γ := (((copies n).setState 0 fs₁).addGuards 0 0).set 0 (.detaching 0 .destroyed)
  have e₁ : system.step (copies n) (.destroyPromise 0 true) = some s₁ := by
    simp only [system, step, Config.detachPromise, hx, Config.call, hs, hd, hf₁]
    rfl
  let s₂ : Config ε α κ ξ γ := ((s₁.setState 0 fs₂).addGuards 0 0).set 0 .destroyed
  have e₂ : system.step s₁ (.detachOne 0) = some s₂ := by
    have hx₁ : s₁.handles[0]? = some (.detaching 0 .destroyed) := by
      simp [s₁, Config.set, Config.addGuards, Config.setState, copies]
    have hs₁ : s₁.states 0 = fs₁ := by simp [s₁, Config.addGuards, Config.setState]
    have hd₁ : fs₁.deleted = false := hd
    simp only [system, step, hx₁, Config.call, hs₁, hd₁, hf₂]
    rfl
  refine ⟨s₂, copies_reachable n |>.step e₁ |>.step e₂, ?_, ?_⟩
  · simp [s₂, Config.setState, Config.addGuards, fs₂, ha]
  · have hl : s₂.handles = .destroyed :: List.replicate n (.promise (some 0) false) := by
      simp [s₂, s₁, Config.set, Config.addGuards, Config.setState, copies, List.replicate_succ]
    simp [Config.count, hl, List.countP_replicate, Handle.refersTo]

theorem premature_deletion :
    ∃ s : Config Unit Nat String Unit Unit, system.Reachable s ∧ ¬ Alive s := by
  obtain ⟨s, hr, hd, hc⟩ := destroy_copy 256 (by decide) (by decide) (by decide)
  refine ⟨s, hr, fun h => ?_⟩
  have := h.deleted hd
  omega

end Handles
end AsyncSimple
