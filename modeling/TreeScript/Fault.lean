set_option autoImplicit false

/- What can stop a running program. -/
namespace TreeScript

/-- Errors of the script itself. -/
inductive ScriptError where
  | undefinedFunction (name : String)
  | undefinedClass (name : String)
  | undefinedMethod (className method : String)
  | nonObjectMethodCall (method : String)
  | scalarAsArray
  | illegalOffset
  | emptyIndexRead
  | divisionByZero
  | moduloByZero
  | unsupportedOperands (left operator right : String)
  | negativeShift
  | invalidListUsage
  | nestingLevel (limit : Nat)
  | invalidArgument (function expected : String)
  deriving Repr, DecidableEq

def ScriptError.message : ScriptError → String
  | .undefinedFunction name => "Call to undefined function " ++ name ++ "()"
  | .undefinedClass name => "Class '" ++ name ++ "' not found"
  | .undefinedMethod className method =>
      "Call to undefined method " ++ className ++ "::" ++ method ++ "()"
  | .nonObjectMethodCall method => "Call to a member function " ++ method ++ "() on a non-object"
  | .scalarAsArray => "Cannot use a scalar value as an array"
  | .illegalOffset => "Illegal offset type"
  | .emptyIndexRead => "Cannot use [] for reading"
  | .divisionByZero => "Division by zero"
  | .moduloByZero => "Modulo by zero"
  | .unsupportedOperands left operator right =>
      "Unsupported operand types: " ++ left ++ " " ++ operator ++ " " ++ right
  | .negativeShift => "Bit shift by negative number"
  | .invalidListUsage => "Cannot use list() outside of an assignment"
  | .nestingLevel limit =>
      "Maximum function nesting level of '" ++ toString limit ++ "' reached, aborting!"
  | .invalidArgument function expected => function ++ "() expects " ++ expected

inductive Fault where
  | script (e : ScriptError)
  /-- A stream refused a write. -/
  | stream (reason : String)
  | noScope
  /-- A copy or comparison of a value that holds itself would not end. -/
  | endless
  deriving Repr, DecidableEq

def Fault.message : Fault → String
  | .script e => e.message
  | .stream reason => "IO error: " ++ reason
  | .noScope => "No scope is active"
  | .endless => "Value nesting has no end"

end TreeScript
