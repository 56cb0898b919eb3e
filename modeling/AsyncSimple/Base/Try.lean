import Mathlib.Data.List.Basic

namespace AsyncSimple

-- The exceptions that the library throws itself, and those (`thrown`) of user code.
inductive Exception (ε : Type)
  | logicError   (what : String)
  | runtimeError (what : String)
  | thrown       (e : ε)
  deriving DecidableEq, Repr

inductive Try (ε α : Type)
  | nothing
  | value     (v : α)
  | exception (x : Exception ε)
  deriving DecidableEq, Repr

namespace Try

variable {ε α β : Type}

def available : Try ε α → Bool
  | nothing => false
  | _       => true

def hasException : Try ε α → Bool
  | exception _ => true
  | _           => false

def hasValue : Try ε α → Bool
  | value _ => true
  | _       => false

def map (f : α → β) : Try ε α → Try ε β
  | nothing     => nothing
  | value v     => value (f v)
  | exception x => exception x

-- `Value` returns the value, or throws what `CheckHoldsValue` throws.
def getValue : Try ε α → Except (Exception ε) α
  | value v     => .ok v
  | exception x => .error x
  | nothing     => .error (.logicError "Try object is empty")

-- What `MakeTryCall` makes of the outcome of the call.
def makeTryCall : Except (Exception ε) α → Try ε α
  | .ok v    => value v
  | .error x => exception x

@[simp]
theorem available_makeTryCall (r : Except (Exception ε) α) : (makeTryCall r).available := by
  cases r <;> rfl

@[simp]
theorem makeTryCall_getValue {t : Try ε α} (h : t.available) : makeTryCall t.getValue = t := by
  cases t
  case nothing => contradiction
  all_goals rfl

@[simp]
theorem getValue_makeTryCall (r : Except (Exception ε) α) : (makeTryCall r).getValue = r := by
  cases r <;> rfl

end Try
end AsyncSimple
