import AsyncSimple.Base.Try
import AsyncSimple.Lib.Transition
import Mathlib.Algebra.BigOperators.Group.Multiset.Defs
import Mathlib.Data.Multiset.Range

-- The representation of a `Try<T>`: a tag and a union, updated by separate statements around a
-- construction of T that may throw. `Try` is what such an object stands for.

open Transition

namespace AsyncSimple

inductive InnerType
  | kValue
  | kException
  | kNothing
  deriving DecidableEq, Repr

-- The member of the anonymous union that is alive, if any. Each T and each `exception_ptr` that is
-- constructed in a union has an identity of its own. An `exception_ptr` refers to an exception or is null.
inductive Union (ε α : Type)
  | empty
  | value_     (id : Nat) (v : α)
  | exception_ (id : Nat) (p : Option ε)
  deriving DecidableEq, Repr

structure TryObject (ε α : Type) where
  inner_type_ : InnerType
  union       : Union ε α
  deriving DecidableEq, Repr

-- What has been constructed in and destroyed from unions so far. There is a fault when a member is
-- destroyed or read that is not alive.
structure Ledger where
  constructed : Nat
  destroyed   : List Nat
  fault       : Bool
  deriving DecidableEq, Repr

variable {ε α : Type}

namespace Ledger

def construct (l : Ledger) : Ledger :=
  { l with constructed := l.constructed + 1 }

def destroy (l : Ledger) (id : Nat) : Ledger :=
  { l with destroyed := id :: l.destroyed }

def faulty (l : Ledger) : Ledger :=
  { l with fault := true }

end Ledger

namespace TryObject

def make : TryObject ε α where
  inner_type_ := .kNothing
  union       := .empty

-- From a `const T &` or a `T &&`, with the T that is constructed from it.
def ofValue (v : α) (l : Ledger) : TryObject ε α × Ledger :=
  (⟨.kValue, .value_ l.constructed v⟩, l.construct)

def ofException (p : Option ε) (l : Ledger) : TryObject ε α × Ledger :=
  (⟨.kException, .exception_ l.constructed p⟩, l.construct)

-- A `Try<Unit>` from the `exception_` of a `Try<void>`.
def ofVoid (exception_ : Option ε) (unit : α) (l : Ledger) : TryObject ε α × Ledger :=
  if exception_.isSome then ofException exception_ l else ofValue unit l

-- `Destroy` calls the destructor that `inner_type_` asks for.
def destroy (o : TryObject ε α) (l : Ledger) : TryObject ε α × Ledger :=
  match o.inner_type_, o.union with
  | .kValue,     .value_ id _     => (⟨.kNothing, .empty⟩, l.destroy id)
  | .kException, .exception_ id _ => (⟨.kNothing, .empty⟩, l.destroy id)
  | .kNothing,   u                => (⟨.kNothing, u⟩, l)
  | _,           u                => (⟨.kNothing, u⟩, l.faulty)

-- The placement new of the move constructor and of the move assignment, into the union `u`. For its
-- argument, `move` yields the T that a move construction of T makes of it, or `none` when that
-- throws, and what it leaves behind. An `exception_ptr` is copied.
def moveUnion (other : TryObject ε α) (move : α → Option α × α) (u : Union ε α) (l : Ledger) :
    Option (Union ε α) × TryObject ε α × Ledger :=
  match other.inner_type_, other.union with
  | .kValue, .value_ id v =>
    let other := { other with union := .value_ id (move v).2 }
    match (move v).1 with
    | some w => (some (.value_ l.constructed w), other, l.construct)
    | none   => (none, other, l)
  | .kException, .exception_ _ p => (some (.exception_ l.constructed p), other, l.construct)
  | .kNothing, _ => (some u, other, l)
  | _, _         => (some u, other, l.faulty)

-- Whether there is a move construction of T, which throws.
def throws (other : TryObject ε α) (move : α → Option α × α) : Bool :=
  match other.inner_type_, other.union with
  | .kValue, .value_ _ v => (move v).1.isNone
  | _,       _           => false

-- When the move construction of T throws, then there is no new object.
def moveConstruct (other : TryObject ε α) (move : α → Option α × α) (l : Ledger) :
    Option (TryObject ε α) × TryObject ε α × Ledger :=
  let m := other.moveUnion move .empty l
  (m.1.map (⟨other.inner_type_, ·⟩), m.2)

-- The assignment from another object. When the move construction of T throws, then `inner_type_`
-- has been set already.
def moveAssign (o other : TryObject ε α) (move : α → Option α × α) (l : Ledger) :
    TryObject ε α × TryObject ε α × Ledger :=
  let d := o.destroy l
  let m := other.moveUnion move d.1.union d.2
  (⟨other.inner_type_, m.1.getD d.1.union⟩, m.2)

def exception? (o : TryObject ε α) : Option (Option ε) :=
  match o.inner_type_, o.union with
  | .kException, .exception_ _ p => some p
  | _,           _               => none

def assign [DecidableEq ε] (o : TryObject ε α) (p : Option ε) (l : Ledger) : TryObject ε α × Ledger :=
  if o.exception? = some p then
    (o, l)
  else
    ofException p (o.destroy l).2

def setException [DecidableEq ε] (o : TryObject ε α) (p : Option ε) (l : Ledger) : TryObject ε α × Ledger :=
  o.assign p l

def available (o : TryObject ε α) : Bool :=
  o.inner_type_ != .kNothing

def hasException (o : TryObject ε α) : Bool :=
  o.inner_type_ == .kException

-- `Value` returns the value or throws, unless it reads a member that is not alive or rethrows null.
def value (o : TryObject ε α) : Option (Except (Exception ε) α) :=
  match o.inner_type_, o.union with
  | .kValue,     .value_ _ v            => some (.ok v)
  | .kException, .exception_ _ (some e) => some (.error (.thrown e))
  | .kNothing,   _                      => some (.error (.logicError "Try object is empty"))
  | _,           _                      => none

def getException (o : TryObject ε α) : Option (Except (Exception ε) (Option ε)) :=
  if o.inner_type_ = .kException then
    o.exception?.map .ok
  else
    some (.error (.logicError "Try object do not have an error"))

end TryObject

-- Any number of objects, of which the destroyed ones are `none`.
structure TryObjects (ε α : Type) where
  objects : List (Option (TryObject ε α))
  ledger  : Ledger
  deriving DecidableEq, Repr

namespace TryObjects

inductive Action (ε α : Type)
  | construct
  | ofValue (built : Option α)
  | ofException (p : Option ε)
  | ofVoid (exception_ : Option ε) (unit : α)
  | moveConstruct (j : Nat) (move : α → Option α × α)
  | moveAssign (i j : Nat) (move : α → Option α × α)
  | assign (i : Nat) (p : Option ε)
  | setException (i : Nat) (p : Option ε)
  | destruct (i : Nat)

def init : TryObjects ε α where
  objects := []
  ledger  := { constructed := 0, destroyed := [], fault := false }

def object (s : TryObjects ε α) (i : Nat) : Option (TryObject ε α) :=
  s.objects[i]?.join

def add (s : TryObjects ε α) (r : TryObject ε α × Ledger) : TryObjects ε α where
  objects := s.objects ++ [some r.1]
  ledger  := r.2

def set (s : TryObjects ε α) (i : Nat) (r : TryObject ε α × Ledger) : TryObjects ε α where
  objects := s.objects.set i (some r.1)
  ledger  := r.2

def step [DecidableEq ε] (s : TryObjects ε α) : Action ε α → Option (TryObjects ε α)
  | .construct     => some (s.add (.make, s.ledger))
  | .ofValue built => some (built.elim s fun v => s.add (TryObject.ofValue v s.ledger))
  | .ofException p => some (s.add (TryObject.ofException p s.ledger))
  | .ofVoid p unit => some (s.add (TryObject.ofVoid p unit s.ledger))
  | .moveConstruct j move =>
    (s.object j).map fun other =>
      let m := other.moveConstruct move s.ledger
      let s' := s.set j m.2
      m.1.elim s' fun o => s'.add (o, s'.ledger)
  | .moveAssign i j move =>
    (s.object i).bind fun o =>
      (s.object j).map fun other =>
        -- Nothing happens in a self-assignment.
        if i = j then s
        else
          let m := o.moveAssign other move s.ledger
          (s.set i (m.1, m.2.2)).set j m.2
  | .assign i p       => (s.object i).map fun o => s.set i (o.assign p s.ledger)
  | .setException i p => (s.object i).map fun o => s.set i (o.setException p s.ledger)
  | .destruct i       =>
    (s.object i).map fun o => { objects := s.objects.set i none, ledger := (o.destroy s.ledger).2 }

def system [DecidableEq ε] : System (TryObjects ε α) (Action ε α) where
  init := init
  step := step

-- Whether this is a move assignment from another object, in which the move construction of T throws.
def Action.throwsInAssign (s : TryObjects ε α) : Action ε α → Bool
  | .moveAssign i j move => i != j && (s.object j).any (·.throws move)
  | _                    => false

end TryObjects
end AsyncSimple
