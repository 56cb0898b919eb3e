import AsyncSimple.Base.TryVariant
import AsyncSimple.Base.Theorems.TryObject

open Transition

namespace AsyncSimple

variable {ε α : Type}

namespace TryVariant

def tag : TryVariant ε α → InnerType
  | monostate       => .kNothing
  | value _         => .kValue
  | exception_ptr _ => .kException

theorem setException_eq [DecidableEq ε] (v : TryVariant ε α) (p : Option ε) :
    v.setException p = exception_ptr p := by
  rw [setException]
  split
  case isTrue h  => cases v <;> simp_all [exception?]
  case isFalse   => rfl

@[simp]
theorem moveAssign_fst (m : Moves ε α) (v other : TryVariant ε α) : (v.moveAssign m other).1 = other := by
  cases v <;> cases other <;> rfl

@[simp]
theorem moveConstruct_fst (m : Moves ε α) (v : TryVariant ε α) : (v.moveConstruct m).1 = v := by
  cases v <;> rfl

-- A move leaves the alternative as it is.

@[simp]
theorem tag_moveAssign (m : Moves ε α) (v other : TryVariant ε α) : (v.moveAssign m other).2.tag = other.tag := by
  cases v <;> cases other <;> rfl

@[simp]
theorem tag_moveConstruct (m : Moves ε α) (v : TryVariant ε α) : (v.moveConstruct m).2.tag = v.tag := by
  cases v <;> rfl

end TryVariant

-- The variant that corresponds to a union.
def Union.variant : Union ε α → TryVariant ε α
  | empty          => .monostate
  | value_ _ v     => .value v
  | exception_ _ p => .exception_ptr p

@[simp]
theorem Union.tag_variant (u : Union ε α) : u.variant.tag = u.tag := by
  cases u <;> rfl

namespace TryObject

variable {u w : Union ε α} {l : Ledger} {m : Moves ε α}

-- A move construction of T that does not throw.
theorem moveUnion_move (w : Union ε α) (m : Moves ε α) (l : Ledger) :
    ∃ v w' l', (ofUnion w).moveUnion m.move .empty l = (some v, ofUnion w', l') ∧
      v.variant = w.variant ∧ w'.tag = w.tag := by
  cases w
  case empty           => exact ⟨_, _, _, rfl, rfl, rfl⟩
  case value_ id v     => exact ⟨.value_ _ v, .value_ id (m.construct v), _, rfl, rfl, rfl⟩
  case exception_ id p => exact ⟨.exception_ _ p, .exception_ id p, _, rfl, rfl, rfl⟩

theorem moveConstruct_move (w : Union ε α) (m : Moves ε α) (l : Ledger) :
    ∃ v w' l', (ofUnion w).moveConstruct m.move l = (some (ofUnion v), ofUnion w', l') ∧
      v.variant = w.variant ∧ w'.tag = w.tag := by
  obtain ⟨v, w', l', h, hv, hw⟩ := moveUnion_move w m l
  refine ⟨v, w', l', ?_, hv, hw⟩
  have ht : (ofUnion w).inner_type_ = v.tag := by rw [← v.tag_variant, hv, w.tag_variant, ofUnion]
  simp only [moveConstruct, h, ht, Option.map_some]
  rfl

theorem moveAssign_move (u w : Union ε α) (m : Moves ε α) (l : Ledger) :
    ∃ v w' l', (ofUnion u).moveAssign (ofUnion w) m.move l = (ofUnion v, ofUnion w', l') ∧
      v.variant = w.variant ∧ w'.tag = w.tag := by
  obtain ⟨v, w', l', h, hv, hw⟩ := moveUnion_move w m ((ofUnion u).destroy l).2
  refine ⟨v, w', l', ?_, hv, hw⟩
  have ht : (ofUnion w).inner_type_ = v.tag := by rw [← v.tag_variant, hv, w.tag_variant, ofUnion]
  simp only [moveAssign_ofUnion, h, ht, Option.getD_some]
  rfl

theorem assign_ofUnion [DecidableEq ε] (u : Union ε α) (p : Option ε) (l : Ledger) :
    ∃ id, ((ofUnion u).assign p l).1 = ofUnion (.exception_ id p) := by
  rw [assign]
  split
  case isFalse  => exact ⟨_, rfl⟩
  case isTrue h =>
    cases u
    case exception_ id q =>
      cases h
      exact ⟨id, rfl⟩
    all_goals contradiction

end TryObject

-- The observations that are the same up to the text by which `GetException` says that there is no
-- exception.
inductive Observation.Same : Observation ε α → Observation ε α → Prop
  | refl : Same x x
  | text :
    Same (.getException (.error (.logicError "Try object do not have an error")))
      (.getException (.error (.logicError "Try object do not have an exception")))

-- Both implementations hold the same kind of content, and the same content if it is not stale.
inductive Register.Agree (r : Register ε α) : Prop
  | intro (u : Union ε α)
    (object  : r.object = .ofUnion u)
    (kind    : r.variant.tag = u.tag)
    (content : r.stale = false → r.variant = u.variant)

namespace Register

variable {r : Register ε α}

-- The observers that read a content which is stale. The others read only the kind of the content.
def readsStale (r : Register ε α) : Observer → Bool
  | .value        => r.stale
  | .getException => r.stale && r.variant.hasException
  | .available    => false
  | .hasException => false

namespace Agree

theorem observe_kind (a : r.Agree) :
    r.object.available = r.variant.available ∧ r.object.hasException = r.variant.hasException := by
  obtain ⟨u, ho, hk, -⟩ := a
  rw [ho]
  cases hv : r.variant <;> rw [hv] at hk <;> cases u <;> cases hk <;> exact ⟨rfl, rfl⟩

-- An exception pointer that is null must not be rethrown.
theorem observe_content (a : r.Agree) (hs : r.stale = false) {ob : Observer}
    (hn : ob = .value → r.variant ≠ .exception_ptr none) :
    ∃ x y, r.object.observe ob = some x ∧ r.variant.observe ob = some y ∧ x.Same y := by
  obtain ⟨u, ho, -, hc⟩ := a
  have hv := hc hs
  rw [ho, hv]
  rw [hv] at hn
  cases u
  case empty       => cases ob <;> exact ⟨_, _, rfl, rfl, by constructor⟩
  case value_      => cases ob <;> exact ⟨_, _, rfl, rfl, by constructor⟩
  case exception_ p =>
    cases ob
    case value =>
      cases p
      case none   => exact absurd rfl (hn rfl)
      case some e => exact ⟨_, _, rfl, rfl, .refl⟩
    all_goals exact ⟨_, _, rfl, rfl, .refl⟩

-- `GetException` throws on a content that is not an exception, whatever this content is.
theorem observe_getException (a : r.Agree) (he : r.variant.hasException = false) :
    ∃ x y, r.object.observe .getException = some x ∧ r.variant.observe .getException = some y ∧ x.Same y := by
  obtain ⟨u, ho, hk, -⟩ := a
  rw [ho]
  cases hv : r.variant <;> rw [hv] at hk he
  case exception_ptr => contradiction
  case monostate     => cases u <;> cases hk; exact ⟨_, _, rfl, rfl, .text⟩
  case value         => cases u <;> cases hk; exact ⟨_, _, rfl, rfl, .text⟩

theorem observe (a : r.Agree) {ob : Observer} (hs : r.readsStale ob = false)
    (hn : ob = .value → r.variant ≠ .exception_ptr none) :
    ∃ x y, r.object.observe ob = some x ∧ r.variant.observe ob = some y ∧ x.Same y := by
  cases ob
  case available    => exact ⟨_, _, rfl, rfl, a.observe_kind.left ▸ .refl⟩
  case hasException => exact ⟨_, _, rfl, rfl, a.observe_kind.right ▸ .refl⟩
  case value        => exact a.observe_content hs hn
  case getException =>
    rcases Bool.and_eq_false_iff.mp hs with hs | he
    · exact a.observe_content hs hn
    · exact a.observe_getException he

end Agree
end Register

namespace Registers

variable {m : Moves ε α} {s s' : Registers ε α} {r : Register ε α}

def Agree (s : Registers ε α) : Prop :=
  ∀ r ∈ s.registers, r.Agree

namespace Agree

theorem add {u : Union ε α} {l : Ledger} {v : TryVariant ε α} {stale : Bool} (a : s.Agree) (hk : v.tag = u.tag)
    (hc : stale = false → v = u.variant) : (s.add (.ofUnion u, l) v stale).Agree := by
  intro r hr
  cases List.mem_append.mp hr
  case inl hr => exact a r hr
  case inr hr =>
    cases List.mem_singleton.mp hr
    exact ⟨u, rfl, hk, hc⟩

theorem set {u : Union ε α} {l : Ledger} {v : TryVariant ε α} {stale : Bool} (a : s.Agree) (hk : v.tag = u.tag)
    (hc : stale = false → v = u.variant) : (s.set i (.ofUnion u, l) v stale).Agree := by
  intro r hr
  cases List.mem_or_eq_of_mem_set hr
  case inl hr => exact a r hr
  case inr hr =>
    cases hr
    exact ⟨u, rfl, hk, hc⟩

theorem assign [DecidableEq ε] {p : Option ε} (a : s.Agree) (hr : s.registers[i]? = some r) :
    (s.set i (r.object.assign p s.ledger) (.exception_ptr p) false).Agree := by
  obtain ⟨u, hu, -, -⟩ := a r (List.mem_of_getElem? hr)
  obtain ⟨id, ho⟩ := TryObject.assign_ofUnion u p s.ledger
  have hp : r.object.assign p s.ledger = (.ofUnion (.exception_ id p), (r.object.assign p s.ledger).2) :=
    Prod.ext (hu ▸ ho) rfl
  rw [hp]
  exact a.set rfl fun _ => rfl

-- What has been moved from is stale, unless it is empty.
theorem leave {u : Union ε α} {l : Ledger} {v : TryVariant ε α} (a : s.Agree) (hr : r.variant.tag = v.tag)
    (hk : v.tag = u.tag) : (s.leave j r (.ofUnion u, l) v).Agree := by
  intro x hx
  cases List.mem_or_eq_of_mem_set hx
  case inl hx => exact a x hx
  case inr hx =>
    cases hx
    refine ⟨u, rfl, hk, fun h => ?_⟩
    obtain ⟨-, h⟩ := Bool.or_eq_false_iff.mp h
    cases hv : r.variant <;> simp [hv, TryVariant.available] at h
    rw [hv] at hr
    cases v <;> cases hr
    cases u <;> cases hk
    rfl

theorem step [DecidableEq ε] {op : Op ε α} (a : s.Agree) (h : s.step m op = some s') : s'.Agree := by
  cases op <;> simp only [Registers.step, Option.some.injEq, Option.bind_eq_bind, Option.bind_eq_some_iff] at h
  case construct     => exact h ▸ a.add (u := .empty) rfl fun _ => rfl
  case ofValue v     => exact h ▸ a.add (u := .value_ _ v) rfl fun _ => rfl
  case ofException p => exact h ▸ a.add (u := .exception_ _ p) rfl fun _ => rfl
  case moveConstruct =>
    obtain ⟨r, hr, h⟩ := h
    obtain ⟨w, ho, hk, hc⟩ := a r (List.mem_of_getElem? hr)
    obtain ⟨v, w', l', hm, hv, hw⟩ := TryObject.moveConstruct_move w m s.ledger
    simp only [ho, hm, Option.map_some, Option.some.injEq, TryVariant.moveConstruct_fst] at h
    subst h
    refine (a.leave (by simp) (by simp [hk, hw])).add ?_ fun hs => ?_
    · rw [hk, ← v.tag_variant, hv, w.tag_variant]
    · rw [hc hs, hv]
  case moveAssign i j =>
    obtain ⟨l, hl, r, hr, h⟩ := h
    split at h
    case isTrue  =>
      cases h
      exact a
    case isFalse =>
      obtain ⟨u, hu, -, -⟩ := a l (List.mem_of_getElem? hl)
      obtain ⟨w, ho, hk, hc⟩ := a r (List.mem_of_getElem? hr)
      obtain ⟨v, w', l', hm, hv, hw⟩ := TryObject.moveAssign_move u w m s.ledger
      simp only [hu, ho, hm, Option.some.injEq, TryVariant.moveAssign_fst] at h
      subst h
      refine (a.set ?_ fun hs => ?_).leave (by simp) (by simp [hk, hw])
      · rw [hk, ← v.tag_variant, hv, w.tag_variant]
      · rw [hc hs, hv]
  case assign i p       =>
    obtain ⟨r, hr, h⟩ := h
    cases h
    exact a.assign hr
  case setException i p =>
    obtain ⟨r, hr, h⟩ := h
    cases h
    exact TryVariant.setException_eq r.variant p ▸ a.assign hr

end Agree

-- Each observation of a register is the same in both implementations, unless it reads a content that
-- is stale.
theorem observations_agree [DecidableEq ε] (hr : (system m).Reachable s) (hm : r ∈ s.registers)
    {ob : Observer} (hs : r.readsStale ob = false) (hn : ob = .value → r.variant ≠ .exception_ptr none) :
    ∃ x y, r.object.observe ob = some x ∧ r.variant.observe ob = some y ∧ x.Same y := by
  have init : Agree (Registers.init : Registers ε α) := fun _ h => absurd h List.not_mem_nil
  have a : s.Agree := hr.invariant init fun a h => a.step h
  exact (a r hm).observe hs hn

-- Moves that leave an empty T and a null pointer behind.
def emptying : Moves Nat Nat where
  construct _          := 0
  assign _ _           := 0
  constructException _ := none
  assignException _ _  := none

def assignRun : List (Op Nat Nat) :=
  [.ofException (some 5), .ofValue 3, .moveConstruct 0, .moveAssign 0 1, .setException 1 none, .moveAssign 2 0]

theorem observations_agree_assign :
    ∃ r : Register Nat Nat, r.object.value = some (.ok 3) ∧
      ∃ x y, r.object.observe .value = some x ∧ r.variant.observe .value = some y ∧ x.Same y := by
  obtain ⟨s, hr, hs⟩ := (system emptying).exists_reachable assignRun
    (p := fun s => ⟨⟨.kValue, .value_ 5 3⟩, .value 3, false, false⟩ ∈ s.registers) (by decide)
  exact ⟨_, rfl, observations_agree hr (decide_eq_true_eq.mp hs) rfl nofun⟩

-- A register has been moved from twice, and only a `Try` still holds its exception. Also, the texts
-- of `GetException` differ.
theorem observations_differ :
    (∃ s r, (system emptying).run init [.ofException (some 5), .moveConstruct 0, .moveConstruct 0] = some s ∧
      s.registers[2]? = some r ∧ r.moved = false ∧
      r.object.observe .getException = some (.getException (.ok (some 5))) ∧
      r.variant.observe .getException = some (.getException (.ok none))) ∧
    (∃ s r, (system emptying).run init [.construct] = some s ∧
      s.registers[0]? = some r ∧ r.moved = false ∧
      r.object.observe .getException =
        some (.getException (.error (.logicError "Try object do not have an error"))) ∧
      r.variant.observe .getException =
        some (.getException (.error (.logicError "Try object do not have an exception")))) :=
  ⟨⟨_, _, rfl, rfl, rfl, rfl, rfl⟩, ⟨_, _, rfl, rfl, rfl, rfl, rfl⟩⟩

end Registers
end AsyncSimple
