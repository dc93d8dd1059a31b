/-!
# Numbered faults

Every failure of an evaluation has a number, and the number determines the category: operations on
values, names and calls, statements, threads. A `ValueFault` is a failure of an operation on values,
which knows nothing of the place where it happened.
-/

namespace Animator

/-- What a fault is about. -/
inductive Category where
  | value
  | scope
  | statement
  | thread
  deriving DecidableEq, Repr

def Category.text : Category → String
  | .value => "value"
  | .scope => "scope"
  | .statement => "statement"
  | .thread => "thread"

/-- The number of a fault. -/
structure Code where
  number : Nat
  deriving DecidableEq, Repr, Inhabited

namespace Code

def wrongDynamicType : Code := ⟨4000⟩
def conversionFailed : Code := ⟨4001⟩
def noSuchField : Code := ⟨4002⟩
def indexOutOfRange : Code := ⟨4003⟩
def divisionByZero : Code := ⟨4004⟩
def emptySequence : Code := ⟨4005⟩
def notUpdatable : Code := ⟨4006⟩
def rangeTooLarge : Code := ⟨4007⟩
def nameNotFound : Code := ⟨4050⟩
def notCallable : Code := ⟨4051⟩
def unresolvedCall : Code := ⟨4052⟩
def argumentMismatch : Code := ⟨4053⟩
def preconditionFailed : Code := ⟨4054⟩
def notYetSpecified : Code := ⟨4055⟩
def noSuchClass : Code := ⟨4056⟩
def loopNeverTerminates : Code := ⟨4100⟩
def bindMembershipFailed : Code := ⟨4101⟩
def letBeExhausted : Code := ⟨4102⟩
def patternMismatch : Code := ⟨4103⟩
def trapBindFailed : Code := ⟨4104⟩
def typeNotEnumerable : Code := ⟨4105⟩
def invariantViolated : Code := ⟨4106⟩
def alreadyStarted : Code := ⟨4150⟩
def noThreadDefined : Code := ⟨4151⟩
def negativeDuration : Code := ⟨4152⟩
def noTimeLimit : Code := ⟨4154⟩

/-- The `category` of a number; numbers outside every range count as thread faults. -/
def category (c : Code) : Category :=
  if 4000 ≤ c.number ∧ c.number ≤ 4049 then .value
  else if 4050 ≤ c.number ∧ c.number ≤ 4099 then .scope
  else if 4100 ≤ c.number ∧ c.number ≤ 4149 then .statement
  else .thread

/-- The number as it is shown in messages. -/
def text (c : Code) : String :=
  "Error " ++ toString c.number

end Code

/-- A failed operation on values. -/
inductive ValueFault where
  /-- A value of another kind was wanted. -/
  | wrongType (expected : String) (actual : String)
  /-- A value is not a member of a type. -/
  | conversion (value : String) (target : String)
  | noSuchField (name : String)
  | indexOutOfRange (index : Int) (length : Nat)
  | divisionByZero
  | emptySequence (operator : String)
  | notUpdatable
  deriving DecidableEq, Repr

namespace ValueFault

def message : ValueFault → String
  | .wrongType expected actual => "expecting " ++ expected ++ ", got " ++ actual
  | .conversion value target => "cannot convert " ++ value ++ " to " ++ target
  | .noSuchField name => "no such field: " ++ name
  | .indexOutOfRange index length =>
    "index " ++ toString index ++ " out of range 1.." ++ toString length
  | .divisionByZero => "division by zero"
  | .emptySequence operator => operator ++ " applied to empty sequence"
  | .notUpdatable => "value is not updatable"

def code : ValueFault → Code
  | .wrongType _ _ => .wrongDynamicType
  | .conversion _ _ => .conversionFailed
  | .noSuchField _ => .noSuchField
  | .indexOutOfRange _ _ => .indexOutOfRange
  | .divisionByZero => .divisionByZero
  | .emptySequence _ => .emptySequence
  | .notUpdatable => .notUpdatable

end ValueFault

end Animator
