set_option autoImplicit false

/- Operators: the tokens a tree may carry, and what they stand for. -/
namespace TreeScript

inductive BinaryOperator where
  | add | subtract | multiply | divide | modulo | concat | shiftLeft | shiftRight
  | equal | notEqual | identical | notIdentical
  | less | lessOrEqual | greater | greaterOrEqual
  deriving Repr, DecidableEq

inductive UnaryOperator where
  | plus | minus | complement | not
  | preIncrement | preDecrement | postIncrement | postDecrement
  deriving Repr, DecidableEq

namespace BinaryOperator

/-- The name in code listings. -/
def name : BinaryOperator → String
  | .add => "add"
  | .subtract => "subtract"
  | .multiply => "multiply"
  | .divide => "divide"
  | .modulo => "modulo"
  | .concat => "concat"
  | .shiftLeft => "shiftLeftBy"
  | .shiftRight => "shiftRightBy"
  | .equal => "isEqualTo"
  | .notEqual => "isNotEqualTo"
  | .identical => "isIdenticalTo"
  | .notIdentical => "isNotIdenticalTo"
  | .less => "isLessThan"
  | .lessOrEqual => "isLessThanOrEqual"
  | .greater => "isGreaterThan"
  | .greaterOrEqual => "isGreaterThanOrEqual"

/-- The token in a tree. -/
def symbol : BinaryOperator → String
  | .add => "+"
  | .subtract => "-"
  | .multiply => "*"
  | .divide => "/"
  | .modulo => "%"
  | .concat => "."
  | .shiftLeft => "<<"
  | .shiftRight => ">>"
  | .equal => "=="
  | .notEqual => "!="
  | .identical => "==="
  | .notIdentical => "!=="
  | .less => "<"
  | .lessOrEqual => "<="
  | .greater => ">"
  | .greaterOrEqual => ">="

def all : List BinaryOperator :=
  [.add, .subtract, .multiply, .divide, .modulo, .concat, .shiftLeft, .shiftRight, .equal,
    .notEqual, .identical, .notIdentical, .less, .lessOrEqual, .greater, .greaterOrEqual]

def ofSymbol (token : String) : Option BinaryOperator := all.find? (·.symbol == token)

theorem ofSymbol_symbol (o : BinaryOperator) : ofSymbol o.symbol = some o := by
  cases o <;> decide

end BinaryOperator

/-- A binary token is an operator or the assignment. -/
inductive BinaryToken where
  | operator (o : BinaryOperator)
  | assign
  deriving Repr, DecidableEq

def BinaryToken.ofSymbol (token : String) : Option BinaryToken :=
  if token == "=" then some .assign else (BinaryOperator.ofSymbol token).map .operator

namespace UnaryOperator

/-- The name in code listings. -/
def name : UnaryOperator → String
  | .plus => "toPositive"
  | .minus => "toNegative"
  | .complement => "onesComplement"
  | .not => "logicalNot"
  | .preIncrement => "preIncrement"
  | .preDecrement => "preDecrement"
  | .postIncrement => "postIncrement"
  | .postDecrement => "postDecrement"

/-- The operator of a token before (`leading`) or after its operand. -/
def ofSymbol (token : String) (leading : Bool) : Option UnaryOperator :=
  match leading, token with
  | true, "+" => some .plus
  | true, "-" => some .minus
  | true, "++" => some .preIncrement
  | true, "--" => some .preDecrement
  | true, "~" => some .complement
  | true, "!" => some .not
  | false, "++" => some .postIncrement
  | false, "--" => some .postDecrement
  | _, _ => none

/-- Increments and decrements write back, so their operand is a place. -/
def writesBack : UnaryOperator → Bool
  | .preIncrement | .preDecrement | .postIncrement | .postDecrement => true
  | _ => false

end UnaryOperator
end TreeScript
