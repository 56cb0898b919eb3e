import AsyncSimple.Base.TryObject
import AsyncSimple.Lib.Count

open Transition

namespace AsyncSimple

variable {ε α : Type}

namespace Union

def tag : Union ε α → InnerType
  | empty          => .kNothing
  | value_ _ _     => .kValue
  | exception_ _ _ => .kException

def ids : Union ε α → Multiset Nat
  | empty           => 0
  | value_ id _     => {id}
  | exception_ id _ => {id}

end Union

-- `inner_type_` says which member of the union is alive.
structure TryObject.Tagged (o : TryObject ε α) : Prop where
  kValue     : o.inner_type_ = .kValue ↔ ∃ id v, o.union = .value_ id v
  kException : o.inner_type_ = .kException ↔ ∃ id p, o.union = .exception_ id p
  kNothing   : o.inner_type_ = .kNothing ↔ o.union = .empty

-- Every member that has been constructed is either alive, in one of the unions whose members are
-- `alive`, or has been destroyed once.
structure Ledger.Accounts (l : Ledger) (alive : Multiset Nat) : Prop where
  once  : alive + l.destroyed = Multiset.range l.constructed
  fault : l.fault = false

namespace Ledger.Accounts

variable {l : Ledger} {alive : Multiset Nat} {id : Nat}

theorem construct (a : l.Accounts alive) : l.construct.Accounts (alive + {l.constructed}) where
  once := by
    rw [add_right_comm]
    rw [show (l.construct).destroyed = l.destroyed from rfl, a.once, add_comm]
    exact (Multiset.range_succ _).symm
  fault := a.fault

theorem destroy (a : l.Accounts (alive + {id})) : (l.destroy id).Accounts alive where
  once := by
    rw [← show _ = Multiset.range (l.destroy id).constructed from a.once, add_assoc]
    simp [Ledger.destroy]
  fault := a.fault

end Ledger.Accounts

namespace TryObject

variable {o other : TryObject ε α} {l : Ledger} {alive : Multiset Nat} {move : α → Option α × α}

def ids (o : TryObject ε α) : Multiset Nat :=
  o.union.ids

def ofUnion (u : Union ε α) : TryObject ε α where
  inner_type_ := u.tag
  union       := u

theorem ofUnion_tagged (u : Union ε α) : (ofUnion u).Tagged := by
  constructor <;> cases u <;> simp [ofUnion, Union.tag]

theorem Tagged.exists_ofUnion (t : o.Tagged) : ∃ u, o = ofUnion u := by
  obtain ⟨i, u⟩ := o
  refine ⟨u, congrArg (TryObject.mk · u) ?_⟩
  cases u
  case empty      => exact t.kNothing.mpr rfl
  case value_     => exact t.kValue.mpr ⟨_, _, rfl⟩
  case exception_ => exact t.kException.mpr ⟨_, _, rfl⟩

-- An object that has been made or changed by an operation, which leaves the other members alone.
structure Keeps (r : TryObject ε α × Ledger) (alive : Multiset Nat) : Prop where
  tagged   : r.1.Tagged
  accounts : r.2.Accounts (alive + r.1.ids)

theorem make_keeps (a : l.Accounts alive) : Keeps ((make : TryObject ε α), l) alive :=
  ⟨ofUnion_tagged .empty, (add_zero alive).symm ▸ a⟩

theorem ofValue_keeps (a : l.Accounts alive) (v : α) :
    Keeps (ofValue v l : TryObject ε α × Ledger) alive :=
  ⟨ofUnion_tagged (.value_ _ v), a.construct⟩

theorem ofException_keeps (a : l.Accounts alive) (p : Option ε) :
    Keeps (ofException p l : TryObject ε α × Ledger) alive :=
  ⟨ofUnion_tagged (.exception_ _ p), a.construct⟩

theorem ofVoid_keeps (a : l.Accounts alive) (p : Option ε) (unit : α) : Keeps (ofVoid p unit l) alive := by
  rw [ofVoid]
  split
  case isTrue  => exact ofException_keeps a p
  case isFalse => exact ofValue_keeps a unit

@[simp]
theorem destroy_ofUnion (u : Union ε α) (l : Ledger) : ((ofUnion u).destroy l).1 = make := by
  cases u <;> rfl

theorem moveAssign_ofUnion (u : Union ε α) :
    (ofUnion u).moveAssign other move l =
      let m := other.moveUnion move .empty ((ofUnion u).destroy l).2
      (⟨other.inner_type_, m.1.getD .empty⟩, m.2) := by
  simp only [moveAssign, destroy_ofUnion]
  rfl

theorem destroy_accounts (t : o.Tagged) (a : l.Accounts (alive + o.ids)) :
    (o.destroy l).2.Accounts alive := by
  obtain ⟨u, rfl⟩ := t.exists_ofUnion
  cases u
  case empty      => exact add_zero alive ▸ a
  case value_     => exact a.destroy
  case exception_ => exact a.destroy

theorem assign_keeps [DecidableEq ε] (t : o.Tagged) (a : l.Accounts (alive + o.ids)) (p : Option ε) :
    Keeps (o.assign p l) alive := by
  rw [assign]
  split
  case isTrue  => exact ⟨t, a⟩
  case isFalse => exact ofException_keeps (destroy_accounts t a) p

-- The ways in which the placement new into an empty union goes, with the union, the other object
-- and the ledger afterwards.
inductive Moved (other : TryObject ε α) (move : α → Option α × α) (l : Ledger) :
    Option (Union ε α) × TryObject ε α × Ledger → Prop
  | nothing :
    (other = ofUnion .empty) →
    Moved other move l (some .empty, other, l)
  | value :
    (other = ofUnion (.value_ i v)) → ((move v).1 = some w) →
    Moved other move l (some (.value_ l.constructed w), ofUnion (.value_ i (move v).2), l.construct)
  | exception :
    (other = ofUnion (.exception_ i p)) →
    Moved other move l (some (.exception_ l.constructed p), other, l.construct)
  | throws :
    (other = ofUnion (.value_ i v)) → ((move v).1 = none) →
    Moved other move l (none, ofUnion (.value_ i (move v).2), l)

theorem moveUnion_moved (t : other.Tagged) (move : α → Option α × α) (l : Ledger) :
    Moved other move l (other.moveUnion move .empty l) := by
  obtain ⟨u, rfl⟩ := t.exists_ofUnion
  cases u
  case empty      => exact .nothing rfl
  case exception_ => exact .exception rfl
  case value_ v   =>
    cases hm : (move v).1
    case none   => simpa [moveUnion, ofUnion, Union.tag, hm] using Moved.throws rfl hm
    case some w => simpa [moveUnion, ofUnion, Union.tag, hm] using Moved.value rfl hm

namespace Moved

variable {m : Option (Union ε α) × TryObject ε α × Ledger}

theorem throws_iff (h : Moved other move l m) : m.1 = none ↔ other.throws move := by
  cases h <;> subst other <;> simp_all [TryObject.throws, ofUnion, Union.tag]

theorem tag (h : Moved other move l m) (hu : m.1 = some u) : u.tag = other.inner_type_ := by
  cases h <;> cases hu <;> subst other <;> rfl

-- The other object keeps its member.
theorem other_keeps {l' : Ledger} (h : Moved other move l m) (a : l'.Accounts (alive + other.ids)) :
    Keeps (m.2.1, l') alive := by
  cases h <;> subst other <;> exact ⟨ofUnion_tagged _, a⟩

theorem accounts (h : Moved other move l m) (a : l.Accounts alive) :
    m.2.2.Accounts (alive + (m.1.getD .empty).ids) := by
  cases h
  case nothing | throws  => simpa [Union.ids] using a
  case value | exception => exact a.construct

end Moved

theorem moveConstruct_keeps (t : other.Tagged) (a : l.Accounts alive)
    (h : (other.moveConstruct move l).1 = some o) : Keeps (o, (other.moveConstruct move l).2.2) alive := by
  have hm := moveUnion_moved t move l
  simp only [moveConstruct, Option.map_eq_some_iff] at h
  obtain ⟨u, hu, rfl⟩ := h
  have ha := hm.accounts a
  rw [hu] at ha
  rw [← hm.tag hu]
  exact ⟨ofUnion_tagged u, ha⟩

end TryObject

namespace TryObjects

variable {s s' : TryObjects ε α} {o : TryObject ε α} {r : TryObject ε α × Ledger} {act : Action ε α}

-- The identities of the members that are alive.
def alive (s : TryObjects ε α) : Multiset Nat :=
  (s.objects.map fun o => o.elim 0 TryObject.ids).sum

structure Sound (s : TryObjects ε α) : Prop where
  tagged   : ∀ o, some o ∈ s.objects → o.Tagged
  accounts : s.ledger.Accounts s.alive

theorem mem_of_object {i : Nat} (h : s.object i = some o) : some o ∈ s.objects := by
  exact List.mem_of_getElem? (Option.join_eq_some_iff.mp h)

-- The other objects and their members are not concerned when one of them is replaced or destroyed.
theorem exists_rest {i : Nat} (h : s.object i = some o) (x : Option (TryObject ε α)) (l : Ledger) :
    ∃ rest, s.alive = rest + o.ids ∧
      alive { objects := s.objects.set i x, ledger := l } = rest + x.elim 0 TryObject.ids := by
  have hi := Option.join_eq_some_iff.mp h
  have ha := Count.sum_map_eraseIdx (fun o => o.elim 0 TryObject.ids) hi
  have hs := Count.sum_map_set (fun o => o.elim 0 TryObject.ids) x hi
  rw [← ha, add_right_comm] at hs
  exact ⟨_, ha.symm, add_right_cancel hs⟩

namespace Sound

theorem init : Sound (init : TryObjects ε α) where
  tagged   := nofun
  accounts := ⟨rfl, rfl⟩

theorem add (k : Sound s) (h : TryObject.Keeps r s.alive) : Sound (s.add r) where
  tagged o ho := by
    cases List.mem_append.mp ho
    case inl ho => exact k.tagged o ho
    case inr ho =>
      cases List.mem_singleton.mp ho
      exact h.tagged
  accounts := by simpa [TryObjects.add, alive] using h.accounts

theorem set {i : Nat} (k : Sound s) (ho : s.object i = some o)
    (h : ∀ {rest}, s.ledger.Accounts (rest + o.ids) → TryObject.Keeps r rest) : Sound (s.set i r) := by
  obtain ⟨rest, ha, hs⟩ := exists_rest ho (some r.1) r.2
  have hr := h (ha ▸ k.accounts)
  refine ⟨fun x hx => ?_, ?_⟩
  · cases List.mem_or_eq_of_mem_set hx
    case inl hx => exact k.tagged x hx
    case inr hx =>
      cases hx
      exact hr.tagged
  · rw [TryObjects.set, hs]
    exact hr.accounts

theorem destruct {i : Nat} (k : Sound s) (ho : s.object i = some o) :
    Sound { objects := s.objects.set i none, ledger := (o.destroy s.ledger).2 } := by
  obtain ⟨rest, ha, hs⟩ := exists_rest ho none (o.destroy s.ledger).2
  refine ⟨fun x hx => ?_, ?_⟩
  · cases List.mem_or_eq_of_mem_set hx
    case inl hx => exact k.tagged x hx
    case inr hx => contradiction
  · rw [hs]
    simpa using TryObject.destroy_accounts (k.tagged o (mem_of_object ho)) (ha ▸ k.accounts)

-- When all objects have been destroyed, then each T and `exception_ptr` has been, exactly once.
theorem destroyed (k : Sound s) (h : ∀ o ∈ s.objects, o = none) :
    s.ledger.destroyed.Perm (List.range s.ledger.constructed) := by
  have ha : s.alive = 0 := by
    refine List.sum_eq_zero fun x hx => ?_
    obtain ⟨o, ho, rfl⟩ := List.mem_map.mp hx
    simp [h o ho]
  have := k.accounts.once
  rw [ha, zero_add] at this
  exact Multiset.coe_eq_coe.mp this

end Sound

theorem set_comm {i j : Nat} {o' : TryObject ε α} {l : Ledger} (hn : i ≠ j) :
    (s.set i (o, l)).set j (o', l) = (s.set j (o', s.ledger)).set i (o, l) := by
  simp [TryObjects.set, List.set_comm _ _ hn]

theorem object_set {i j : Nat} (hn : i ≠ j) : (s.set j r).object i = s.object i := by
  simp [object, TryObjects.set, hn.symm]

section Move

variable {other : TryObject ε α} {move : α → Option α × α} {i j : Nat}

theorem Sound.moveConstruct (k : Sound s) (hj : s.object j = some other) :
    let m := other.moveConstruct move s.ledger
    Sound (m.1.elim (s.set j m.2) fun o => (s.set j m.2).add (o, m.2.2)) := by
  have t := k.tagged other (mem_of_object hj)
  have hm := TryObject.moveUnion_moved t move s.ledger
  cases ho : (other.moveConstruct move s.ledger).1 <;> simp only [ho, Option.elim]
  case none   =>
    refine k.set hj fun a => hm.other_keeps ?_
    simpa [Option.map_eq_none_iff.mp ho, Union.ids] using hm.accounts a
  case some o =>
    have k' : Sound (s.set j ((other.moveConstruct move s.ledger).2.1, s.ledger)) :=
      k.set hj fun a => hm.other_keeps a
    exact k'.add (TryObject.moveConstruct_keeps t k'.accounts ho)

theorem Sound.moveAssign_iff (k : Sound s) (hi : s.object i = some o) (hj : s.object j = some other)
    (hn : i ≠ j) :
    let m := o.moveAssign other move s.ledger
    Sound ((s.set i (m.1, m.2.2)).set j m.2) ↔ other.throws move = false := by
  have t := k.tagged o (mem_of_object hi)
  have hm := TryObject.moveUnion_moved (k.tagged other (mem_of_object hj)) move (o.destroy s.ledger).2
  obtain ⟨w, rfl⟩ := t.exists_ofUnion
  rw [TryObject.moveAssign_ofUnion]
  generalize other.moveUnion move .empty ((TryObject.ofUnion w).destroy s.ledger).2 = m at hm ⊢
  obtain ⟨u, other', l⟩ := m
  cases u <;> simp only [Option.getD]
  case none =>
    -- The tag has been set, but the union has remained empty.
    have ht := hm.throws_iff.mp rfl
    simp only [ht, Bool.true_eq_false, iff_false]
    intro k'
    have hm : some ⟨other.inner_type_, .empty⟩ ∈ (s.set i (⟨other.inner_type_, .empty⟩, l)).objects.set j (some other') := by
      refine List.mem_of_getElem? (i := i) ?_
      simp [TryObjects.set, hn.symm, (List.getElem?_eq_some_iff.mp (Option.join_eq_some_iff.mp hi)).1]
    have hn : other.inner_type_ = .kNothing := (k'.tagged _ hm).kNothing.mpr rfl
    simp [TryObject.throws, hn] at ht
  case some u =>
    have ht := Bool.eq_false_iff.mpr fun h => Option.some_ne_none u (hm.throws_iff.mpr h)
    simp only [ht, iff_true]
    -- First, the other object changes, and then this one.
    rw [set_comm hn, ← hm.tag rfl]
    refine (k.set hj fun a => hm.other_keeps a).set (object_set hn ▸ hi) fun a => ?_
    exact ⟨TryObject.ofUnion_tagged u, hm.accounts (TryObject.destroy_accounts t a)⟩

end Move

variable [DecidableEq ε]

namespace Sound

theorem step_iff (k : Sound s) (h : s.step act = some s') : Sound s' ↔ act.throwsInAssign s = false := by
  cases act <;> simp only [step, Option.some.injEq, Option.map_eq_some_iff, Option.bind_eq_some_iff] at h
  case moveAssign i j move =>
    obtain ⟨o, hi, other, hj, rfl⟩ := h
    by_cases hn : i = j
    case pos => simp [hn, k, Action.throwsInAssign]
    case neg => simpa [hn, hj, Action.throwsInAssign] using k.moveAssign_iff hi hj hn
  all_goals simp only [Action.throwsInAssign, iff_true]
  case construct        => exact h ▸ k.add (TryObject.make_keeps k.accounts)
  case ofValue built    =>
    cases built
    case none   => exact h ▸ k
    case some v => exact h ▸ k.add (TryObject.ofValue_keeps k.accounts v)
  case ofException p    => exact h ▸ k.add (TryObject.ofException_keeps k.accounts p)
  case ofVoid p unit    => exact h ▸ k.add (TryObject.ofVoid_keeps k.accounts p unit)
  case moveConstruct    =>
    obtain ⟨other, hj, rfl⟩ := h
    exact k.moveConstruct hj
  case assign p | setException p =>
    obtain ⟨o, hi, rfl⟩ := h
    exact k.set hi fun a => TryObject.assign_keeps (k.tagged o (mem_of_object hi)) a p
  case destruct         =>
    obtain ⟨o, hi, rfl⟩ := h
    exact k.destruct hi

end Sound

-- The representation is kept in each run without such an assignment, and the first one breaks it.
theorem representation_kept
    (hr : (system.restrict fun s (act : Action ε α) => act.throwsInAssign s = false).Reachable s) :
    Sound s ∧
    ((∀ o ∈ s.objects, o = none) → s.ledger.destroyed.Perm (List.range s.ledger.constructed)) ∧
    ∀ act s', system.step s act = some s' → (Sound s' ↔ act.throwsInAssign s = false) := by
  have k : Sound s := by
    refine hr.invariant Sound.init fun k h => ?_
    obtain ⟨hc, h⟩ := System.restrict_step.mp h
    exact (k.step_iff h).mpr hc
  exact ⟨k, k.destroyed, fun act s' h => k.step_iff h⟩

-- A move construction of T that succeeds, and one that throws.

def moves (v : Nat) : Option Nat × Nat :=
  (some v, 0)

def throws (v : Nat) : Option Nat × Nat :=
  (none, v)

-- No T is constructed in the new object or by the failing constructors.
def keptRun : List (Action Nat Nat) :=
  [.ofValue (some 1), .ofValue none, .ofException (some 5), .moveConstruct 0 throws, .moveConstruct 0 moves,
    .moveAssign 1 0 moves, .moveAssign 0 0 throws, .setException 2 (some 7), .moveAssign 0 2 throws,
    .destruct 0, .destruct 1, .destruct 2]

theorem representation_kept_throwing :
    ∃ s : TryObjects Nat Nat, s.ledger.constructed = 6 ∧ Sound s ∧
      s.ledger.destroyed.Perm (List.range s.ledger.constructed) := by
  obtain ⟨s, hr, hs⟩ := System.exists_reachable
    (S := system.restrict fun s (act : Action Nat Nat) => act.throwsInAssign s = false) keptRun
    (p := fun s => s.ledger.constructed = 6 ∧ ∀ o ∈ s.objects, o = none) (by decide)
  simp only [Bool.decide_and, Bool.and_eq_true, decide_eq_true_eq] at hs
  have h := representation_kept hr
  exact ⟨s, hs.1, h.1, h.2.1 hs.2⟩

def brokenRun : List (Action Nat Nat) :=
  [.ofValue (some 1), .ofValue (some 2), .moveAssign 0 1 throws]

-- There is no T in the first object, whose destructor calls that of T.
theorem representation_broken :
    ∃ s s' : TryObjects Nat Nat, system.run system.init brokenRun = some s ∧
      s.object 0 = some ⟨.kValue, .empty⟩ ∧ ¬ Sound s ∧
      system.step s (.destruct 0) = some s' ∧ s'.ledger.fault := by
  refine ⟨_, _, rfl, rfl, fun k => ?_, rfl, rfl⟩
  have := (k.tagged ⟨.kValue, .empty⟩ (by decide)).kNothing.mpr rfl
  contradiction

end TryObjects
end AsyncSimple
