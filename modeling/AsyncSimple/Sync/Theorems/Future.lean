import AsyncSimple.Sync.Future

open Transition

namespace AsyncSimple

variable {ε α ξ : Type}

@[simp]
theorem Try.available_moved (moved : α → α) (t : Try ε α) : (t.moved moved).available = t.available := by
  cases t <;> rfl

@[simp]
theorem LocalState.hasResult_moved (moved : α → α) (l : LocalState ε α ξ) : (l.moved moved).hasResult = l.hasResult :=
  Try.available_moved moved l.try_value_

namespace Owners

-- Who owns which result: at most one handle has the tag of a future, and if the result has been
-- delivered, then the tag tells through which handle.
structure Sole (tag : Nat → Option Tag) (given : Nat) (delivered : List (Nat × Nat)) : Prop where
  bound  : ∀ {i t}, tag i = some t → t.future < given
  unique : ∀ {i j t u}, tag i = some t → tag j = some u → t.future = u.future → i = j
  past   : ∀ {i n}, (i, n) ∈ delivered → n < given
  asked  : ∀ {i n j t}, (i, n) ∈ delivered → tag j = some t → t.future = n → t.asked = some i
  once   : ∀ {i j n}, (i, n) ∈ delivered → (j, n) ∈ delivered → i = j

namespace Sole

variable {tag tag' : Nat → Option Tag} {given : Nat} {delivered : List (Nat × Nat)}

theorem none : Sole (fun _ => .none) 0 [] where
  bound h      := by contradiction
  unique h     := by contradiction
  past h       := by contradiction
  asked h      := by contradiction
  once h       := by contradiction

-- Each handle has the tag that another one has had before, and no two of them have that of the same.
theorem pass (o : Sole tag given delivered) (src : Nat → Nat) (hs : ∀ {i t}, tag' i = some t → tag (src i) = some t)
    (hi : ∀ {i j t u}, tag' i = some t → tag' j = some u → src i = src j → i = j) : Sole tag' given delivered where
  bound h        := o.bound (hs h)
  unique hi' hj hn := hi hi' hj (o.unique (hs hi') (hs hj) hn)
  past           := o.past
  asked hd h     := o.asked hd (hs h)
  once           := o.once

theorem keep (o : Sole tag given delivered) (h : ∀ i, tag' i = tag i) : Sole tag' given delivered :=
  (funext h : tag' = tag) ▸ o

theorem give (o : Sole tag given delivered) {i : Nat} (hi : ∀ t, tag' i = some t → t = ⟨given, .none⟩)
    (hne : ∀ j, j ≠ i → tag' j = tag j) : Sole tag' (given + 1) delivered := by
  have future {j t} (h : tag' j = some t) : (j = i ∧ t.future = given) ∨ tag j = some t := by
    by_cases hj : j = i
    · subst hj
      exact .inl ⟨rfl, hi t h ▸ rfl⟩
    · exact .inr (hne j hj ▸ h)
  constructor
  case bound =>
    intro j t h
    obtain ⟨_, h⟩ | h := future h
    · exact h ▸ Nat.lt_succ_self _
    · exact Nat.lt_succ_of_lt (o.bound h)
  case unique =>
    intro j k t u hj hk hn
    obtain ⟨hj, ht⟩ | hj := future hj <;> obtain ⟨hk, hu⟩ | hk := future hk
    · exact hj.trans hk.symm
    · exact absurd (o.bound hk) (by omega)
    · exact absurd (o.bound hj) (by omega)
    · exact o.unique hj hk hn
  case past => exact fun h => Nat.lt_succ_of_lt (o.past h)
  case asked =>
    intro j n k t hd h hn
    obtain ⟨_, ht⟩ | h := future h
    · exact absurd (o.past hd) (by omega)
    · exact o.asked hd h hn
  case once => exact o.once

theorem ask (o : Sole tag given delivered) {i : Nat} {t : Tag} (hi : tag i = some t)
    (ha : ∀ j, t.asked = some j → j = i) (hi' : tag' i = some { t with asked := some i })
    (hne : ∀ j, j ≠ i → tag' j = tag j) : Sole tag' given ((i, t.future) :: delivered) := by
  have old {j u} (h : tag' j = some u) :
      (j = i ∧ u = { t with asked := some i }) ∨ (j ≠ i ∧ tag j = some u) := by
    by_cases hj : j = i
    · subst hj
      exact .inl ⟨rfl, (Option.some.inj (hi'.symm.trans h)).symm⟩
    · exact .inr ⟨hj, hne j hj ▸ h⟩
  constructor
  case bound =>
    intro j u h
    obtain ⟨_, rfl⟩ | ⟨_, h⟩ := old h
    · exact o.bound (t := t) hi
    · exact o.bound h
  case unique =>
    intro j k u v hj hk hn
    obtain ⟨rfl, rfl⟩ | ⟨_, hj⟩ := old hj <;> obtain ⟨rfl, rfl⟩ | ⟨_, hk⟩ := old hk
    · rfl
    · exact o.unique (t := t) hi hk hn
    · exact o.unique (u := t) hj hi hn
    · exact o.unique hj hk hn
  case past =>
    intro j n h
    cases h
    case head   => exact o.bound hi
    case tail h => exact o.past h
  case asked =>
    intro j n k u hd h hn
    obtain ⟨rfl, rfl⟩ | ⟨hk, h⟩ := old h
    · cases hd
      case head    => rfl
      case tail hd => exact congrArg some (ha j (o.asked hd hi hn)).symm
    · cases hd
      case head    => exact absurd (o.unique h hi hn) hk
      case tail hd => exact o.asked hd h hn
  case once =>
    have new {j} (h : (j, t.future) ∈ delivered) : j = i := ha j (o.asked h hi rfl)
    intro j k n hj hk
    cases hj <;> cases hk
    case head.head       => rfl
    case head.tail hk    => exact (new hk).symm
    case tail.head hj    => exact new hj
    case tail.tail hj hk => exact o.once hj hk

end Sole
def Config.tag? (s : Config ε α ξ) (i : Nat) : Option Tag :=
  s.handles[i]?.bind s.tagOf

-- The future of this handle holds no result that `Get` has delivered through another handle.
def Config.unasked (s : Config ε α ξ) (this : Nat) (e : Handle ε α ξ) : Bool :=
  (s.tagOf e).all fun t => t.asked.all (· = this)

-- No ready future is moved from by move construction, or overwritten by move assignment, `Get` and `Wait`
-- are called on valid futures only, and `Get` delivers no result that it has already delivered through
-- another handle, before it was moved.
def Config.careful (s : Config ε α ξ) : Action ε α ξ → Bool
  | .move other | .via other _ => (s.handle other).all fun e => !e.local_state_.hasResult
  | .moveAssign this other     => this = other || (s.handle this).all fun e => !e.local_state_.hasResult
  | .call this .get _          => (s.handle this).all fun e => e.valid && s.unasked this e
  | .call this .wait _         => (s.handle this).all fun e => e.valid
  | .wake this                 => s.handles[this]?.all fun e => s.unasked this e
  | _                          => true

def Careful (s : Config ε α ξ) (act : Action ε α ξ) : Prop :=
  s.careful act

instance (s : Config ε α ξ) (act : Action ε α ξ) : Decidable (Careful s act) :=
  inferInstanceAs (Decidable (_ = true))

-- After a move, the future that has been moved from is not valid until it is assigned, so that each call
-- on it throws. No result is held by two handles, and none has been delivered through two handles.
structure SingleOwner (s : Config ε α ξ) : Prop where
  invalid   : ∀ (i : Nat) e, s.handles[i]? = some e → e.movedFrom → e.valid = false
  throws    : ∀ (i : Nat) e c, s.handles[i]? = some e → e.movedFrom → ∃ x, e.check c = .error x
  texts     : ∀ x ∈ s.refused, x = .logicError "Future is broken"
  owner     : ∀ i j t u, s.tag? i = some t → s.tag? j = some u → t.future = u.future → i = j
  delivered : ∀ i j n, (i, n) ∈ s.delivered → (j, n) ∈ s.delivered → i = j

-- How the futures and the promises of the program refer to states.
structure Formed (s : Config ε α ξ) : Prop where
  exclusive : ∀ {i : Nat} {e a}, s.handles[i]? = some e → e.shared_state_ = some a → e.local_state_.hasResult = false
  moved     : ∀ {i : Nat} {e}, s.handles[i]? = some e → e.movedFrom → e.valid = false
  state     : ∀ {i : Nat} {e a}, s.handles[i]? = some e → e.shared_state_ = some a → a < s.fresh
  promise   : ∀ {p : Nat} {q}, s.promises[p]? = some q → q.shared_state_ < s.fresh
  apart     : ∀ {p p' : Nat} {q q'}, s.promises[p]? = some q → s.promises[p']? = some q' →
    q.shared_state_ = q'.shared_state_ → p = p'
  free      : ∀ {p a i : Nat} {e}, s.promises[p]? = some ⟨a, false⟩ → s.handles[i]? = some e →
    e.shared_state_ ≠ some a

structure Inv (s : Config ε α ξ) : Prop where
  formed : Formed s
  sole   : Sole s.tag? s.given s.delivered
  texts  : ∀ x ∈ s.refused, x = .logicError "Future is broken"

variable {s s₁ s₂ : Config ε α ξ} {moved : α → α} {i j this other : Nat} {e : Handle ε α ξ}

namespace Config

theorem handle_eq_some : s.handle i = some e ↔ s.handles[i]? = some e ∧ e.waiting = none := by
  simp only [handle, Option.bind_eq_some_iff]
  constructor
  · rintro ⟨f, hf, h⟩
    split at h <;> cases h
    exact ⟨hf, Option.isNone_iff_eq_none.mp ‹_›⟩
  · rintro ⟨he, hw⟩
    exact ⟨e, he, if_pos (by simp [hw])⟩

theorem tag?_of_handle (h : s.handles[i]? = some e) : s.tag? i = s.tagOf e := by
  simp [tag?, h]

theorem tagOf_valid (h : e.valid) : ∃ t, s.tagOf e = some t := by
  simp only [tagOf]
  cases hs : e.shared_state_
  case some => exact ⟨_, rfl⟩
  case none =>
    simp only [Future.valid, hs, Option.isSome_none, Bool.false_or] at h
    exact ⟨_, if_pos h⟩

theorem tagOf_eq_none (h : e.valid = false) : s.tagOf e = none := by
  simp only [Future.valid, Bool.or_eq_false_iff, Option.isSome_eq_false_iff, Option.isNone_iff_eq_none] at h
  simp [tagOf, h.left, h.right]

theorem tagOf_setState_of_ne (h : e.shared_state_ ≠ some a) : (s.setState a fs).tagOf e = s.tagOf e := by
  simp only [tagOf]
  cases hs : e.shared_state_
  case none   => rfl
  case some b =>
    have hb : b ≠ a := fun hb => h (by rw [hs, hb])
    simp [setState, Function.update_of_ne hb]

theorem tagOf_setState (ht : fs.tag = (s.states a).tag) : (s.setState a fs).tagOf e = s.tagOf e := by
  by_cases h : e.shared_state_ = some a
  · simp [tagOf, h, setState, ht]
  · exact tagOf_setState_of_ne h

theorem tag?_setState_of_ne (h : ∀ e, s.handles[i]? = some e → e.shared_state_ ≠ some a) :
    (s.setState a fs).tag? i = s.tag? i := by
  cases he : s.handles[i]?
  case none   => simp [tag?, setState, he]
  case some e =>
    rw [tag?_of_handle he, tag?_of_handle (s := s.setState a fs) he, tagOf_setState_of_ne (h e he)]

theorem tag?_setState (ht : fs.tag = (s.states a).tag) : (s.setState a fs).tag? i = s.tag? i := by
  simp only [tag?, funext fun e => tagOf_setState (e := e) ht]
  rfl

theorem tag?_add : (s.add e).tag? i = if i = s.handles.length then s.tagOf e else s.tag? i := by
  simp only [tag?, add]
  split
  case isTrue h  => simp [h]; rfl
  case isFalse h =>
    rcases Nat.lt_or_gt_of_ne h with h | h
    · rw [List.getElem?_append_left h]
      rfl
    · simp [List.getElem?_eq_none (show s.handles.length ≤ i by omega),
        List.getElem?_eq_none (show (s.handles ++ [e]).length ≤ i by simp; omega)]

theorem tag?_set (h : s.handles[this]? = some f) :
    (s.set this e).tag? i = if i = this then s.tagOf e else s.tag? i := by
  have hi := (List.getElem?_eq_some_iff.mp h).1
  simp only [tag?, set]
  split
  case isTrue h  => simp [h, hi]; rfl
  case isFalse h => rw [List.getElem?_set_ne (Ne.symm h)]; rfl

end Config

-- A state that a future may refer to.
structure Known (s : Config ε α ξ) (a : Nat) : Prop where
  lt    : a < s.fresh
  given : ∀ p : Nat, s.promises[p]? ≠ some ⟨a, false⟩

-- What is asked of a future that is put into a handle.
structure Fits (s : Config ε α ξ) (e : Handle ε α ξ) : Prop where
  exclusive : ∀ {a}, e.shared_state_ = some a → e.local_state_.hasResult = false
  moved     : e.movedFrom → e.valid = false
  known     : ∀ {a}, e.shared_state_ = some a → Known s a

namespace Formed

theorem init : Formed (system (ε := ε) (ξ := ξ) moved).init where
  exclusive h := by simp [system] at h
  moved h     := by simp [system] at h
  state h     := by simp [system] at h
  promise h   := by simp [system] at h
  apart h     := by simp [system] at h
  free h      := by simp [system] at h

theorem fits (f : Formed s) (h : s.handles[i]? = some e) : Fits s e where
  exclusive := f.exclusive h
  moved     := f.moved h
  known ha  := ⟨f.state h ha, fun _ hp => f.free hp h ha⟩

-- The handles are those from before, or fit.
theorem of_handles (f : Formed s₁) (hp : s₂.promises = s₁.promises) (hf : s₁.fresh ≤ s₂.fresh)
    (hh : ∀ {i : Nat} {e}, s₂.handles[i]? = some e → Fits s₂ e ∨ s₁.handles[i]? = some e) : Formed s₂ := by
  have hh {i : Nat} {e} (h : s₂.handles[i]? = some e) : Fits s₂ e := by
    cases hh h
    case inl h => exact h
    case inr h =>
      have h := f.fits h
      exact ⟨h.exclusive, h.moved, fun ha => ⟨(h.known ha).lt.trans_le hf, hp ▸ (h.known ha).given⟩⟩
  constructor
  case exclusive => exact fun h => (hh h).exclusive
  case moved     => exact fun h => (hh h).moved
  case state     => exact fun h ha => ((hh h).known ha).lt
  case promise   => exact fun h => (f.promise (hp ▸ h)).trans_le hf
  case apart     => exact fun h h' => f.apart (hp ▸ h) (hp ▸ h')
  case free      => exact fun hp h ha => ((hh h).known ha).given _ hp

theorem setState (f : Formed s) : Formed (s.setState a fs) :=
  f.of_handles rfl (Nat.le_refl _) .inr

theorem set (f : Formed s) (he : Fits s e) : Formed (s.set this e) := by
  refine f.of_handles rfl (Nat.le_refl _) fun {i e'} h => ?_
  simp only [Config.set, List.getElem?_set] at h
  split at h
  case isFalse => exact .inr h
  case isTrue  =>
    split at h <;> cases h
    exact .inl ⟨he.exclusive, he.moved, fun ha => ⟨(he.known ha).lt, (he.known ha).given⟩⟩

theorem add (f : Formed s) (he : Fits s e) : Formed (s.add e) := by
  refine f.of_handles rfl (Nat.le_refl _) fun {i e'} h => ?_
  simp only [Config.add, List.getElem?_append] at h
  split at h
  case isTrue  => exact .inr h
  case isFalse =>
    simp only [List.getElem?_singleton] at h
    split at h <;> cases h
    exact .inl ⟨he.exclusive, he.moved, fun ha => ⟨(he.known ha).lt, (he.known ha).given⟩⟩

theorem newPromise (f : Formed s) : Formed s.newPromise := by
  have old {p : Nat} {q} (h : s.newPromise.promises[p]? = some q) :
      (p = s.promises.length ∧ q = ⟨s.fresh, false⟩) ∨ s.promises[p]? = some q := by
    simp only [Config.newPromise, List.getElem?_append] at h
    split at h
    case isTrue  => exact .inr h
    case isFalse hp =>
      simp only [List.getElem?_singleton] at h
      split at h <;> cases h
      exact .inl ⟨by omega, rfl⟩
  constructor
  case exclusive => exact fun h => f.exclusive h
  case moved     => exact fun h => f.moved h
  case state     => exact fun h ha => Nat.lt_succ_of_lt (f.state h ha)
  case promise   =>
    intro p q h
    obtain ⟨_, rfl⟩ | h := old h
    · exact Nat.lt_succ_self _
    · exact Nat.lt_succ_of_lt (f.promise h)
  case apart     =>
    intro p p' q q' h h' hq
    obtain ⟨hp, rfl⟩ | h := old h <;> obtain ⟨hp', rfl⟩ | h' := old h'
    · exact hp.trans hp'.symm
    · exact absurd (f.promise h') (by simp [← hq])
    · exact absurd (f.promise h) (by simp [hq])
    · exact f.apart h h' hq
  case free      =>
    intro p a i e hp h ha
    obtain ⟨_, hq⟩ | hp := old hp
    · cases hq
      exact absurd (f.state h ha) (Nat.lt_irrefl _)
    · exact f.free hp h ha

-- `GetFuture` sets the flag of the only promise of its state.
theorem takeFuture {promise : Nat} (f : Formed s) (hp : s.promises[promise]? = some ⟨a, false⟩) :
    Formed { s with promises := s.promises.set promise ⟨a, true⟩ } ∧
    Known { s with promises := s.promises.set promise ⟨a, true⟩ } a := by
  have old {p : Nat} {q} (h : (s.promises.set promise ⟨a, true⟩)[p]? = some q) :
      (p = promise ∧ q = ⟨a, true⟩) ∨ (p ≠ promise ∧ s.promises[p]? = some q) := by
    simp only [List.getElem?_set] at h
    split at h
    case isFalse hne => exact .inr ⟨Ne.symm hne, h⟩
    case isTrue he   =>
      split at h <;> cases h
      exact .inl ⟨he.symm, rfl⟩
  have same {p : Nat} {q} (h : (s.promises.set promise ⟨a, true⟩)[p]? = some q) :
      ∃ q', s.promises[p]? = some q' ∧ q'.shared_state_ = q.shared_state_ := by
    obtain ⟨rfl, rfl⟩ | ⟨_, h⟩ := old h
    · exact ⟨_, hp, rfl⟩
    · exact ⟨_, h, rfl⟩
  refine ⟨?_, f.promise hp, fun p h => ?_⟩
  · constructor
    case exclusive => exact f.exclusive
    case moved     => exact f.moved
    case state     => exact f.state
    case promise   =>
      intro p q h
      obtain ⟨q', h', hq⟩ := same h
      exact hq ▸ f.promise h'
    case apart     =>
      intro p p' q q' h h' hq
      obtain ⟨r, h, hr⟩ := same h
      obtain ⟨r', h', hr'⟩ := same h'
      exact f.apart h h' (hr.trans (hq.trans hr'.symm))
    case free      =>
      intro p b i e hb h
      obtain ⟨_, hq⟩ | ⟨_, hb⟩ := old hb
      · cases hq
      · exact f.free hb h
  · obtain ⟨_, hq⟩ | ⟨hne, h⟩ := old h
    · cases hq
    · exact hne (f.apart h hp rfl)

end Formed

namespace Inv

theorem init : Inv (system (ε := ε) (ξ := ξ) moved).init :=
  ⟨.init, .none, fun _ h => by simp [system] at h⟩

theorem setState (i : Inv s) (ht : fs.tag = (s.states a).tag) : Inv (s.setState a fs) :=
  ⟨i.formed.setState, i.sole.keep fun _ => Config.tag?_setState ht, i.texts⟩

-- A handle is replaced by one with the same result.
theorem set (i : Inv s) (he : s.handles[this]? = some e) (hf : Fits s e') (ht : s.tagOf e' = s.tagOf e) :
    Inv (s.set this e') := by
  refine ⟨i.formed.set hf, i.sole.keep fun j => ?_, i.texts⟩
  rw [Config.tag?_set he]
  split
  case isTrue h  => rw [h, Config.tag?_of_handle he, ht]
  case isFalse h => rfl

theorem newPromise (i : Inv s) : Inv s.newPromise :=
  ⟨i.formed.newPromise, i.sole.keep fun _ => Config.tag?_setState_of_ne fun _ he ha =>
    Nat.lt_irrefl _ (i.formed.state he ha), i.texts⟩

theorem makeReadyFuture (i : Inv s) (t : Try ε α) : Inv (s.makeReadyFuture t) := by
  have hf : Fits s (.new (.ofTry t) ⟨s.given, none⟩) := ⟨fun h => (nomatch h), fun h => (nomatch h), fun h => (nomatch h)⟩
  have hf : Formed (s.makeReadyFuture t) := i.formed.add hf |>.of_handles rfl (Nat.le_refl _) .inr
  have ht (j) : (s.makeReadyFuture t).tag? j = (s.add (.new (.ofTry t) ⟨s.given, none⟩)).tag? j := rfl
  refine ⟨hf, i.sole.give (i := s.handles.length) (fun u h => ?_) fun j hj => ?_, i.texts⟩
  · rw [ht, Config.tag?_add, if_pos rfl] at h
    obtain ⟨_, h⟩ := Option.ite_none_right_eq_some.mp h
    exact (Option.some.inj h).symm
  · rw [ht, Config.tag?_add, if_neg hj]

theorem getFuture {promise : Nat} (i : Inv s₁) (h : s₁.getFuture promise = some s₂) : Inv s₂ := by
  simp only [Config.getFuture] at h
  split at h <;> cases h
  case h_2     => exact i
  case h_1 a hp =>
    obtain ⟨hf, hk⟩ := i.formed.takeFuture hp
    let fs : Shared ε α ξ := { s₁.states a with tag := ⟨s₁.given, none⟩ }
    have he : Fits { s₁ with promises := s₁.promises.set promise ⟨a, true⟩ } (.new (.ofState a) ⟨0, none⟩) :=
      ⟨fun _ => rfl, fun h => (nomatch h), fun h => by cases h; exact hk⟩
    have hlen : (s₁.setState a fs).handles.length = s₁.handles.length := rfl
    refine ⟨(hf.add he).of_handles rfl (Nat.le_refl _) .inr, i.sole.give (i := s₁.handles.length) (fun u h => ?_)
      fun j hj => ?_, i.texts⟩
    · have h : ((s₁.setState a fs).add (.new (.ofState a) ⟨0, none⟩)).tag? s₁.handles.length = some u := h
      rw [Config.tag?_add, hlen, if_pos rfl] at h
      simp only [Config.tagOf, Handle.new, Future.ofState, Config.setState, Function.update_self] at h
      exact (Option.some.inj h).symm
    · show ((s₁.setState a fs).add (.new (.ofState a) ⟨0, none⟩)).tag? j = s₁.tag? j
      rw [Config.tag?_add, hlen, if_neg hj]
      exact Config.tag?_setState_of_ne fun e he => i.formed.free hp he

theorem setValue {promise : Nat} {t : Try ε α} (i : Inv s₁) (h : s₁.setValue promise t = some s₂) : Inv s₂ := by
  simp only [Config.setValue] at h
  split at h <;> try contradiction
  case h_1 =>
  split at h <;> cases h
  case h_1 => exact i.setState rfl
  case h_2 => exact i

theorem move (i : Inv s) (he : s.handles[other]? = some e) (hl : e.local_state_.hasResult = false) :
    Inv (s.move moved other e) := by
  let e' : Handle ε α ξ := { e with toFuture := e.moved moved, movedFrom := true }
  have hv : e'.valid = false := by simp [e', Future.valid, Future.moved, hl]
  have hf := i.formed.fits he
  have h₁ : Formed (s.set other e') := i.formed.set ⟨fun h => (nomatch h), fun _ => hv, fun h => (nomatch h)⟩
  have h₂ : Fits (s.set other e') { e with movedFrom := false } :=
    ⟨hf.exclusive, fun h => (nomatch h), fun ha => ⟨(hf.known ha).lt, (hf.known ha).given⟩⟩
  have hlen : (s.set other e').handles.length = s.handles.length := List.length_set
  have ht (j) : (s.move moved other e).tag? j =
      if j = s.handles.length then s.tagOf e else if j = other then none else s.tag? j := by
    show ((s.set other e').add { e with movedFrom := false }).tag? j = _
    rw [Config.tag?_add, hlen, Config.tag?_set he, Config.tagOf_eq_none hv]
    rfl
  refine ⟨h₁.add h₂, i.sole.pass (fun j => if j = s.handles.length then other else j) (fun {j t} h => ?_)
    fun {j k t u} hj hk hjk => ?_, i.texts⟩
  · rw [ht] at h
    split at h
    case isTrue h'  => rw [if_pos h', Config.tag?_of_handle he, h]
    case isFalse h' =>
      split at h
      case isTrue  => contradiction
      case isFalse => rw [if_neg h', h]
  · have gone {l v} (h : (s.move moved other e).tag? l = some v) (hl : l ≠ s.handles.length) : l ≠ other := by
      intro ho
      rw [ht, if_neg hl, if_pos ho] at h
      contradiction
    by_cases h₁ : j = s.handles.length <;> by_cases h₂ : k = s.handles.length
    · exact h₁.trans h₂.symm
    · rw [if_pos h₁, if_neg h₂] at hjk
      exact absurd hjk.symm (gone hk h₂)
    · rw [if_neg h₁, if_pos h₂] at hjk
      exact absurd hjk (gone hj h₁)
    · rwa [if_neg h₁, if_neg h₂] at hjk

theorem moveAssign (i : Inv s₁) (h : s₁.moveAssign this other = some s₂)
    (hl : this = other ∨ ∀ e, s₁.handle this = some e → e.local_state_.hasResult = false) : Inv s₂ := by
  simp only [Config.moveAssign] at h
  split at h <;> try contradiction
  case h_1 e f he hf =>
  split at h <;> cases h
  case isTrue      => exact i
  case isFalse hne =>
    have hl := hl.resolve_left hne e he
    have he := (Config.handle_eq_some.mp he).left
    have hf := (Config.handle_eq_some.mp hf).left
    let f' : Handle ε α ξ := { f with movedFrom := false }
    let e' : Handle ε α ξ := { f with toFuture := e.assigned, tag := e.tag, movedFrom := true }
    have hv : e'.valid = false := by simp [e', Future.valid, Future.assigned, hl]
    have hfit := i.formed.fits hf
    have h₁ : Formed (s₁.set this f') := i.formed.set ⟨hfit.exclusive, fun h => (nomatch h), hfit.known⟩
    have h₂ : Fits (s₁.set this f') e' := ⟨fun h => (nomatch h), fun _ => hv, fun h => (nomatch h)⟩
    have hf' : (s₁.set this f').handles[other]? = some f := by
      rw [Config.set, List.getElem?_set_ne hne, hf]
    have ht (j) : ((s₁.set this f').set other e').tag? j =
        if j = other then none else if j = this then s₁.tagOf f else s₁.tag? j := by
      rw [Config.tag?_set hf', Config.tag?_set he, Config.tagOf_eq_none hv]
      rfl
    refine ⟨h₁.set h₂, i.sole.pass (fun j => if j = this then other else j) (fun {j t} h => ?_)
      fun {j k t u} hj hk hjk => ?_, i.texts⟩
    · rw [ht] at h
      split at h <;> try contradiction
      split at h
      case isTrue h'  => rw [if_pos h', Config.tag?_of_handle hf, h]
      case isFalse h' => rw [if_neg h', h]
    · have gone {l v} (h : ((s₁.set this f').set other e').tag? l = some v) : l ≠ other := by
        intro ho
        rw [ht, if_pos ho] at h
        contradiction
      by_cases h₁ : j = this <;> by_cases h₂ : k = this
      · exact h₁.trans h₂.symm
      · rw [if_pos h₁, if_neg h₂] at hjk
        exact absurd hjk.symm (gone hk)
      · rw [if_neg h₁, if_pos h₂] at hjk
        exact absurd hjk (gone hj)
      · rwa [if_neg h₁, if_neg h₂] at hjk

theorem setExecutor (i : Inv s) (he : s.handles[this]? = some e) (executor : Option ξ) :
    Inv (s.setExecutor this e executor) := by
  have hf := i.formed.fits he
  simp only [Config.setExecutor]
  split
  case h_1    => exact i.setState rfl
  case h_2 hs =>
    refine i.set he ⟨fun h => ?_, hf.moved, hf.known⟩ ?_
    · exact hf.exclusive h
    · simp only [Config.tagOf, hs]
      rfl

theorem via {executor : Option ξ} (i : Inv s₁) (h : s₁.via moved this executor = some s₂)
    (hl : ∀ e, s₁.handle this = some e → e.local_state_.hasResult = false) : Inv s₂ := by
  simp only [Config.via, Option.bind_eq_some_iff, Option.map_eq_some_iff] at h
  obtain ⟨e, he, f, hf, rfl⟩ := h
  have hl := hl e he
  have he := (Config.handle_eq_some.mp he).left
  have hf := (Config.handle_eq_some.mp hf).left
  refine (i.setExecutor he executor).move hf ?_
  simp only [Config.setExecutor] at hf
  split at hf
  case h_1 =>
    cases he.symm.trans hf
    exact hl
  case h_2 =>
    simp only [Config.set, List.getElem?_set_self (List.getElem?_eq_some_iff.mp he).1] at hf
    cases hf
    exact hl

theorem deliver (i : Inv s) (he : s.handles[this]? = some e) (hv : e.valid) (ha : s.unasked this e) :
    Inv (s.deliver moved this e) := by
  obtain ⟨t, ht⟩ := Config.tagOf_valid (s := s) hv
  have hthis : s.tag? this = some t := (Config.tag?_of_handle he).trans ht
  have hasked (j) (hj : t.asked = some j) : j = this := by
    simpa [Config.unasked, ht, hj] using ha
  have hf := i.formed.fits he
  cases hs : e.shared_state_
  case some a =>
    let fs' : Shared ε α ξ := { s.states a with
      try_value_ := (s.states a).try_value_.moved moved
      tag        := { (s.states a).tag with asked := some this } }
    have htag : (s.states a).tag = t := by
      simp only [Config.tagOf, hs] at ht
      exact Option.some.inj ht
    have hc : s.deliver moved this e =
        { s.setState a fs' with delivered := (this, t.future) :: s.delivered } := by
      simp [Config.deliver, hs, ht, fs']
      rfl
    have h₁ : Formed (s.setState a fs') := i.formed.setState
    refine hc ▸ ⟨h₁.of_handles rfl (Nat.le_refl _) .inr,
      i.sole.ask hthis hasked (i := this) ?_ fun j hj => ?_, i.texts⟩
    · show (s.setState a fs').tag? this = _
      rw [Config.tag?_of_handle (s := s.setState a fs') he]
      simp [Config.tagOf, hs, Config.setState, fs', htag]
    · show (s.setState a fs').tag? j = _
      refine Config.tag?_setState_of_ne fun f hj' hf => hj (i.sole.unique (t := t) (u := t) ?_ hthis rfl)
      rw [Config.tag?_of_handle hj']
      simp [Config.tagOf, hf, htag]
  case none =>
    have hl : e.local_state_.hasResult := by simpa [Future.valid, hs] using hv
    let e' : Handle ε α ξ := { e with
      local_state_ := { e.local_state_ with try_value_ := e.local_state_.try_value_.moved moved }
      tag          := { e.tag with asked := some this } }
    have hl' : e'.local_state_.hasResult := (Try.available_moved moved _).trans hl
    have htag : e.tag = t := by
      simp only [Config.tagOf, hs, if_pos hl] at ht
      exact Option.some.inj ht
    have hc : s.deliver moved this e =
        { s.set this e' with delivered := (this, t.future) :: s.delivered } := by
      simp [Config.deliver, hs, ht, e']
      rfl
    have hfit : Fits s e' := by
      refine ⟨fun h => ?_, fun h => ?_, fun h => ?_⟩
      · exact nomatch hs.symm.trans h
      · exact absurd (hf.moved h) (by simp [hv])
      · exact nomatch hs.symm.trans h
    refine hc ▸ ⟨(i.formed.set hfit).of_handles rfl (Nat.le_refl _) .inr,
      i.sole.ask hthis hasked (i := this) ?_ fun j hj => ?_, i.texts⟩
    · show (s.set this e').tag? this = _
      rw [Config.tag?_set he, if_pos rfl]
      simp only [Config.tagOf, show e'.shared_state_ = none from hs, if_pos hl']
      simp [e', htag]
    · show (s.set this e').tag? j = _
      rw [Config.tag?_set he, if_neg hj]

theorem block {get inExecutor : Bool} (i : Inv s₁) (he : s₁.handles[this]? = some e)
    (h : s₁.block this e get inExecutor = some s₂) : Inv s₂ := by
  have hf := i.formed.fits he
  simp only [Config.block] at h
  split at h <;> try contradiction
  case h_2 hs =>
  split at h <;> try contradiction
  split at h <;> cases h
  case h_1 =>
    refine (i.setState ?_).set he ?_ ?_
    · rfl
    · exact ⟨hf.exclusive, hf.moved, fun ha => ⟨(hf.known ha).lt, (hf.known ha).given⟩⟩
    · rfl
  case h_2 => exact i.setState rfl

theorem call {c : Future.Call} {inExecutor : Bool} (i : Inv s₁) (h : s₁.call moved this c inExecutor = some s₂)
    (hc : Careful s₁ (.call this c inExecutor)) : Inv s₂ := by
  simp only [Config.call, Option.bind_eq_some_iff] at h
  obtain ⟨e, he, h⟩ := h
  have he' := (Config.handle_eq_some.mp he).left
  split at h
  case h_1 x hx =>
    cases h
    refine ⟨i.formed.of_handles rfl (Nat.le_refl _) .inr, i.sole.keep fun _ => rfl, fun y hy => ?_⟩
    cases hy
    case tail hy => exact i.texts y hy
    case head    =>
      simp only [Future.check] at hx
      split at hx <;> try contradiction
      cases c <;> simp_all [Careful, Config.careful]
  case h_2 hx =>
    have hv : e.valid := by
      simp only [Future.check] at hx
      split at hx
      case isTrue hv => exact hv
      case isFalse   => split at hx <;> contradiction
    cases c <;> simp only at h
    case get =>
      split at h
      case isFalse => exact i.block he' h
      case isTrue  =>
        cases h
        simp only [Careful, Config.careful, he, Option.all_some, Bool.and_eq_true] at hc
        exact i.deliver he' hv hc.right
    case wait =>
      split at h
      case isFalse => exact i.block he' h
      case isTrue  => exact Option.some.inj h ▸ i
    case result   => exact Option.some.inj h ▸ i
    case thenImpl => contradiction

theorem wake (i : Inv s₁) (h : s₁.wake moved this = some s₂) (hc : Careful s₁ (.wake this)) : Inv s₂ := by
  simp only [Config.wake, Option.bind_eq_some_iff] at h
  obtain ⟨e, he, h⟩ := h
  split at h <;> try contradiction
  case h_1 get a hw hs =>
  split at h <;> try contradiction
  case isTrue hr =>
  let own : FutureState ε α Unit ξ Empty := FutureState.new
  let own := { own with state_ := .kOnlyResult, try_value_ := (s₁.states a).try_value_ }
  let e' : Handle ε α ξ := { e with toFuture := .ofState s₁.fresh, waiting := none, movedFrom := false }
  let s' : Config ε α ξ :=
    ({ s₁ with fresh := s₁.fresh + 1 }.setState s₁.fresh ⟨own, (s₁.states a).tag⟩)
  have h' : some (if get then (s'.set this e').deliver moved this e' else s'.set this e') = some s₂ := h
  have i' : Inv s' := by
    refine ⟨i.formed.of_handles rfl (Nat.le_succ _) .inr, i.sole.keep fun j => ?_, i.texts⟩
    exact Config.tag?_setState_of_ne fun f hf hb => Nat.lt_irrefl _ (i.formed.state hf hb)
  have ht : s'.tagOf e' = s₁.tagOf e := by
    simp [Config.tagOf, hs, e', Future.ofState, s', Config.setState]
  have hb : s'.tagOf e = s₁.tagOf e := Config.tagOf_setState_of_ne fun hb => Nat.lt_irrefl _ (i.formed.state he hb)
  have i'' : Inv (s'.set this e') := by
    refine i'.set he ⟨fun _ => rfl, fun h => (nomatch h), fun h => ?_⟩ (ht.trans hb.symm)
    cases h
    exact ⟨Nat.lt_succ_self _, fun p hp => Nat.lt_irrefl _ (i.formed.promise hp)⟩
  cases get
  case false => exact Option.some.inj h' ▸ i''
  case true  =>
    have h' : (s'.set this e').deliver moved this e' = s₂ := Option.some.inj h'
    refine h' ▸ i''.deliver ?_ rfl ?_
    · exact List.getElem?_set_self (List.getElem?_eq_some_iff.mp he).1
    · have ht : (s'.set this e').tagOf e' = s₁.tagOf e := ht
      simpa only [Config.unasked, ht, Careful, Config.careful, he, Option.all_some] using hc

theorem step {act : Action ε α ξ} (i : Inv s₁) (h : (system moved).step s₁ act = some s₂) (hc : Careful s₁ act) :
    Inv s₂ := by
  have ready {e : Handle ε α ξ} {o : Option (Handle ε α ξ)} (h : o.all fun e => !e.local_state_.hasResult)
      (he : o = some e) : e.local_state_.hasResult = false := by
    simpa [he] using h
  cases act <;> simp only [system, Owners.step] at h
  case newPromise      => exact Option.some.inj h ▸ i.newPromise
  case makeReadyFuture => exact Option.some.inj h ▸ i.makeReadyFuture _
  case getFuture       => exact i.getFuture h
  case setValue        => exact i.setValue h
  case move            =>
    obtain ⟨e, he, rfl⟩ := Option.map_eq_some_iff.mp h
    exact i.move (Config.handle_eq_some.mp he).left (ready hc he)
  case moveAssign      =>
    refine i.moveAssign h ?_
    simp only [Careful, Config.careful, Bool.or_eq_true, decide_eq_true_eq] at hc
    exact hc.imp_right fun hc e => ready hc
  case via             => exact i.via h fun e => ready hc
  case call            => exact i.call h hc
  case wake            => exact i.wake h hc

theorem singleOwner (i : Inv s) : SingleOwner s where
  invalid _ _ he hm  := i.formed.moved he hm
  throws j e c he hm := by
    simp only [Future.check, i.formed.moved he hm, Bool.false_eq_true, if_false]
    cases c
    case get | wait        => exact ⟨_, rfl⟩
    case result | thenImpl => exact ⟨_, rfl⟩
  texts              := i.texts
  owner _ _ _ _      := i.sole.unique
  delivered _ _ _    := i.sole.once

end Inv

theorem single_owner (h : ((system moved).restrict Careful).Reachable s) : SingleOwner s := by
  have hi : Inv (system moved : System (Config ε α ξ) _).init := .init
  refine (h.invariant (S := (system moved).restrict Careful) hi fun i e => ?_).singleOwner
  obtain ⟨hc, e⟩ := System.restrict_step.mp e
  exact i.step e hc

-- A future is moved before and after its promise is fulfilled, and waited for in between.
theorem single_owner_moved :
    ∃ s : Config Unit Nat Bool, s.delivered = [(3, 1), (3, 0)] ∧ s.refused = [.logicError "Future is broken"] ∧
      SingleOwner s := by
  obtain ⟨s, hr, hs⟩ := ((system id).restrict Careful).exists_reachable
    [.newPromise, .getFuture 0, .via 0 (some true), .move 1, .call 2 .wait false, .setValue 0 (.value 7), .wake 2,
      .call 1 .result false, .move 2, .call 3 .get false, .makeReadyFuture (.value 8), .moveAssign 3 4, .call 3 .get false]
    (p := fun s : Config Unit Nat Bool => s.delivered = [(3, 1), (3, 0)] ∧
      s.refused = [.logicError "Future is broken"]) (by decide)
  simp only [Bool.decide_and, Bool.and_eq_true, decide_eq_true_eq] at hs
  exact ⟨s, hs.left, hs.right, single_owner hr⟩

-- A ready future is still valid after it has been moved from.
theorem two_owners :
    ∃ s : Config Unit Nat Bool, (system id).Reachable s ∧ (s.handles[0]?.any fun e => e.movedFrom && e.valid) ∧
      s.delivered = [(1, 0), (0, 0)] ∧ ¬ SingleOwner s := by
  obtain ⟨s, hr, hs⟩ := (system id).exists_reachable
    [.makeReadyFuture (.value 7), .move 0, .call 0 .get false, .call 1 .get false]
    (p := fun s : Config Unit Nat Bool => (s.handles[0]?.any fun e => e.movedFrom && e.valid) ∧
      s.delivered = [(1, 0), (0, 0)]) (by decide)
  simp only [Bool.decide_and, Bool.and_eq_true, decide_eq_true_eq] at hs
  refine ⟨s, hr, hs.left, hs.right, fun h => absurd (h.delivered 1 0 0 ?_ ?_) (by decide)⟩ <;> simp [hs.right]

end Owners
end AsyncSimple
