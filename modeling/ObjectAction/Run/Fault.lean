/-
Why the evaluation of a statement or an expression fails.
-/
import ObjectAction.Population.Error
import ObjectAction.Scope

namespace ObjectAction

inductive Fault where
  | population (e : PopulationError)
  | scope (e : ScopeError)
  /-- `first` and `last` take the variable that a loop goes over. -/
  | needsSetVariable (operator operand : String)
  | noSelf
  | noSelected
  | unknownParameter (name : String)
  | noLoop (operator set : String)
  | notAssignable (target : String)
  | typeMismatch (expected got : String)
  | invalidOperands (operator left right : String)
  | invalidOperand (operator operand : String)
  | overflow (operator : String)
  | divisionByZero
  | negativeIndex (index : Int64)
  | indexOutOfRange (index : Nat)
  deriving DecidableEq, Repr

namespace Fault

def message : Fault → String
  | population e => e.message
  | scope e => e.message
  | needsSetVariable operator operand =>
    s!"unsupported construct: '{operator}' needs a set variable, got '{operand}'"
  | noSelf => "'self' is not available outside an operation"
  | noSelected => "'selected' is not available outside a where clause"
  | unknownParameter name => s!"no parameter named '{name}'"
  | noLoop operator set => s!"'{operator} {set}' used outside a for each over '{set}'"
  | notAssignable target => s!"cannot assign to '{target}'"
  | typeMismatch expected got => s!"expected {expected}, got {got}"
  | invalidOperands operator left right =>
    s!"operator '{operator}' is not defined for {left} and {right}"
  | invalidOperand operator operand => s!"operator '{operator}' is not defined for {operand}"
  | overflow operator => s!"integer overflow in '{operator}'"
  | divisionByZero => "division by zero"
  | negativeIndex index => s!"array index must be non-negative, got {index.toInt}"
  | indexOutOfRange index => s!"array index {index} is out of range"

/-- Whether the run can go on after the fault. Unbalanced scopes are the evaluator's own failure. -/
def isRecoverable : Fault → Bool
  | scope _ => false
  | _ => true

end Fault

end ObjectAction
