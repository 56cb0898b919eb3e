import AsyncSimple.Base.TryObject

-- The second implementation of a try, by a `std::variant`, and programs that do the same to
-- registers of both implementations.

open Transition

namespace AsyncSimple

-- The alternatives of the variant of a `TryV<T>`.
inductive TryVariant (ε α : Type)
  | monostate
  | value         (v : α)
  | exception_ptr (p : Option ε)
  deriving DecidableEq, Repr

-- What moves leave behind. A construction or an assignment that moves yields the value of its
-- argument, and an assignment may leave something that depends on the former value of its target.
structure Moves (ε α : Type) where
  construct          : α → α
  assign             : α → α → α
  constructException : Option ε → Option ε
  assignException    : Option ε → Option ε → Option ε

-- A move construction of T that does not throw.
def Moves.move (m : Moves ε α) (v : α) : Option α × α :=
  (some v, m.construct v)

inductive Observer
  | available
  | hasException
  | value
  | getException
  deriving DecidableEq, Repr

inductive Observation (ε α : Type)
  | bool         (b : Bool)
  | value        (r : Except (Exception ε) α)
  | getException (r : Except (Exception ε) (Option ε))
  deriving Repr

def TryObject.observe (o : TryObject ε α) : Observer → Option (Observation ε α)
  | .available    => some (.bool o.available)
  | .hasException => some (.bool o.hasException)
  | .value        => o.value.map .value
  | .getException => o.getException.map .getException

variable {ε α : Type}

namespace TryVariant

-- The new variant, and what is left of the other one.
def moveConstruct (m : Moves ε α) : TryVariant ε α → TryVariant ε α × TryVariant ε α
  | monostate       => (monostate, monostate)
  | value v         => (value v, value (m.construct v))
  | exception_ptr p => (exception_ptr p, exception_ptr (m.constructException p))

-- An alternative that both variants hold is assigned. Otherwise, it is constructed.
def moveAssign (m : Moves ε α) : TryVariant ε α → TryVariant ε α → TryVariant ε α × TryVariant ε α
  | value w,         value v         => (value v, value (m.assign w v))
  | exception_ptr q, exception_ptr p => (exception_ptr p, exception_ptr (m.assignException q p))
  | _,               other           => other.moveConstruct m

def assign (_ : TryVariant ε α) (p : Option ε) : TryVariant ε α :=
  exception_ptr p

def exception? : TryVariant ε α → Option (Option ε)
  | exception_ptr p => some p
  | _               => none

def setException [DecidableEq ε] (v : TryVariant ε α) (p : Option ε) : TryVariant ε α :=
  if v.exception? = some p then v else exception_ptr p

def available : TryVariant ε α → Bool
  | monostate => false
  | _         => true

def hasException : TryVariant ε α → Bool
  | exception_ptr _ => true
  | _               => false

-- `Value` returns the value or throws, unless it rethrows null.
def getValue : TryVariant ε α → Option (Except (Exception ε) α)
  | value v                => some (.ok v)
  | exception_ptr (some e) => some (.error (.thrown e))
  | exception_ptr none     => none
  | monostate              => some (.error (.logicError "Try object is empty"))

def getException : TryVariant ε α → Except (Exception ε) (Option ε)
  | exception_ptr p => .ok p
  | _               => .error (.logicError "Try object do not have an exception")

def observe (v : TryVariant ε α) : Observer → Option (Observation ε α)
  | .available    => some (.bool v.available)
  | .hasException => some (.bool v.hasException)
  | .value        => v.getValue.map .value
  | .getException => some (.getException v.getException)

end TryVariant

-- A register in both implementations. It is `moved` when it has been moved from since it was last
-- assigned, and `stale` when its content is what a move of a T or of an `exception_ptr` has left
-- behind, here or in the register from which it has been moved.
structure Register (ε α : Type) where
  object  : TryObject ε α
  variant : TryVariant ε α
  moved   : Bool
  stale   : Bool
  deriving DecidableEq, Repr

structure Registers (ε α : Type) where
  registers : List (Register ε α)
  ledger    : Ledger
  deriving DecidableEq, Repr

namespace Registers

inductive Op (ε α : Type)
  | construct
  | ofValue (v : α)
  | ofException (p : Option ε)
  | moveConstruct (j : Nat)
  | moveAssign (i j : Nat)
  | assign (i : Nat) (p : Option ε)
  | setException (i : Nat) (p : Option ε)

def init : Registers ε α where
  registers := []
  ledger    := { constructed := 0, destroyed := [], fault := false }

def add (s : Registers ε α) (o : TryObject ε α × Ledger) (v : TryVariant ε α) (stale : Bool) : Registers ε α where
  registers := s.registers ++ [{ object := o.1, variant := v, moved := false, stale := stale }]
  ledger    := o.2

def set (s : Registers ε α) (i : Nat) (o : TryObject ε α × Ledger) (v : TryVariant ε α) (stale : Bool) :
    Registers ε α where
  registers := s.registers.set i { object := o.1, variant := v, moved := false, stale := stale }
  ledger    := o.2

-- The register `r`, at `j`, has been moved from.
def leave (s : Registers ε α) (j : Nat) (r : Register ε α) (o : TryObject ε α × Ledger) (v : TryVariant ε α) :
    Registers ε α where
  registers := s.registers.set j
    { object := o.1, variant := v, moved := true, stale := r.stale || r.variant.available }
  ledger    := o.2

def step [DecidableEq ε] (m : Moves ε α) (s : Registers ε α) : Op ε α → Option (Registers ε α)
  | .construct       => some (s.add (.make, s.ledger) .monostate false)
  | .ofValue v       => some (s.add (TryObject.ofValue v s.ledger) (.value v) false)
  | .ofException p   => some (s.add (TryObject.ofException p s.ledger) (.exception_ptr p) false)
  | .moveConstruct j => do
    let r ← s.registers[j]?
    let o := r.object.moveConstruct m.move s.ledger
    let v := r.variant.moveConstruct m
    o.1.map fun o' => (s.leave j r o.2 v.2).add (o', o.2.2) v.1 r.stale
  | .moveAssign i j => do
    let l ← s.registers[i]?
    let r ← s.registers[j]?
    -- Nothing happens in a self-assignment.
    if i = j then return s
    let o := l.object.moveAssign r.object m.move s.ledger
    let v := l.variant.moveAssign m r.variant
    (s.set i (o.1, o.2.2) v.1 r.stale).leave j r o.2 v.2
  | .assign i p => do
    let r ← s.registers[i]?
    s.set i (r.object.assign p s.ledger) (r.variant.assign p) false
  | .setException i p => do
    let r ← s.registers[i]?
    s.set i (r.object.setException p s.ledger) (r.variant.setException p) false

def system [DecidableEq ε] (m : Moves ε α) : System (Registers ε α) (Op ε α) where
  init := init
  step := step m

end Registers
end AsyncSimple
