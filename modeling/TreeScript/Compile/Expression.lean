import TreeScript.Compile.Basic

set_option autoImplicit false

/- Expressions: values, places, and the chains built from them. -/
namespace TreeScript.Compile

open Code (Expr Place Base Entry Source Operand)

/-- The place at the end of a chain of keys. On the way to a place that is written to, each
container is implied. -/
def targetPlace (base : Base) : List (Option Expr) → Option Place
  | [] => none
  | [key] => some (.element base key)
  | key :: rest => targetPlace (.implied (.element base key)) rest

/-- The place at the end of a chain of keys that is only read. -/
def readPlace (container : Expr) : List (Option Expr) → Option Place
  | [] => none
  | [key] => some (.element (.value container) key)
  | key :: rest => readPlace (.load (.element (.value container) key)) rest

/-- Whether an empty key may stand before the keys `rest`: anywhere in a place that is written
to, last in a place that is bound, nowhere in a value. -/
def allowsEmptyKey {α : Type} (mode : Mode) (rest : List α) : Bool :=
  match mode with
  | .target => true
  | .location => rest.isEmpty
  | .value => false

/-- The access of a chain of keys to a base. -/
def accessFragment (mode : Mode) (kind : Kind) (base : Fragment) (keys : List (Option Expr)) :
    CompileM Fragment :=
  let place := match mode with
    | .target => targetPlace base.toBase keys
    | .value | .location => readPlace base.toExpr keys
  match place with
  | some p => pure (Fragment.ofPlace mode p)
  | none => unsupported kind .expression

/-- The base of an access is itself written to when the access is, and read otherwise. -/
def baseMode : Mode → Mode
  | .target => .target
  | .value | .location => .value

/-- A bare word is the constant null or a text. -/
def bareWord (text : String) : Expr := if text == "null" then .null else .string text

mutual
/-- Compiles an expression node for what it is wanted. -/
def fragment (mode : Mode) : Node → CompileM Fragment
  | .variable name _ => do
      declareFor mode (variableName name)
      pure (Fragment.ofPlace mode (.variable (variableName name)))
  | .arrayIndex array indices _ => do
      require (!indices.isEmpty) .arrayIndex .expression
      let base ← fragment (baseMode mode) array
      let keys ← indexKeys mode indices
      accessFragment mode .arrayIndex base keys
  | .objectProperty object properties _ => do
      require (!properties.isEmpty) .objectProperty .expression
      let base ← fragment (baseMode mode) object
      let keys ← propertyKeys properties
      accessFragment mode .objectProperty base keys
  | .expression left [] => fragment mode left
  | .expression left (⟨operator, operand⟩ :: rest) => do
      if operator == "=" then do
        let p ← asPlace left.kind (fragment .target left)
        operations true (.place p) (⟨operator, operand⟩ :: rest)
      else do
        let e ← asValue (fragment .value left)
        operations false (.value e) (⟨operator, operand⟩ :: rest)
  | .unaryExpression token operand leading => do
      match UnaryOperator.ofSymbol token leading with
      | none => throw (.unsupportedOperator token (if leading then .before else .after))
      | some operator =>
          if operator.writesBack then do
            let p ← asPlace operand.kind (fragment .target operand)
            pure (.value (.unary operator (.place p)))
          else do
            let e ← asValue (fragment .value operand)
            pure (.value (.unary operator (.value e)))
  | .functionCall function arguments => do
      let function ← asValue (fragment .value function)
      let arguments ← values arguments
      pure (.value (.call function arguments))
  | .methodCall object calls => do
      let object ← asValue (fragment .value object)
      pure (.value (← methodCalls object calls))
  | .newExpression className arguments => do
      let className ← asValue (fragment .value className)
      let arguments ← values arguments
      pure (.value (.instantiate className arguments))
  | .ternary condition options => do
      let condition ← asValue (fragment .value condition)
      pure (.value (← choices condition options))
  | .arrayLiteral elements => do
      pure (.value (.array (← entries elements)))
  | .list elements => do
      require (mode ≠ .value) .list .expression
      pure (.place (.list (← places mode elements)))
  | .integer number => pure (.value (.integer number))
  | .float number => pure (.value (.float number))
  | .boolean value => pure (.value (.boolean value))
  | .string text => pure (.value (bareWord text))
  | .stringLiteral text => pure (.value (.string (String.ofList (unescape text.toList))))
  | .void => pure (.place .nullReference)
  | .keyValuePair .. => unsupported .keyValuePair .expression
  | .program .. => unsupported .program .expression
  | .classStatement .. => unsupported .classStatement .expression
  | .echoStatement .. => unsupported .echoStatement .expression
  | .expressionStatement .. => unsupported .expressionStatement .expression
  | .foreachStatement .. => unsupported .foreachStatement .expression
  | .functionStatement .. => unsupported .functionStatement .expression
  | .ifStatement .. => unsupported .ifStatement .expression
  | .inlineHtmlStatement .. => unsupported .inlineHtmlStatement .expression
  | .returnStatement .. => unsupported .returnStatement .expression
  | .methodDefinition .. => unsupported .methodDefinition .expression
  | .propertyDefinition .. => unsupported .propertyDefinition .expression

def values : List Node → CompileM (List Expr)
  | [] => pure []
  | n :: rest => do
      let e ← asValue (fragment .value n)
      pure (e :: (← values rest))

def places (mode : Mode) : List Node → CompileM (List Place)
  | [] => pure []
  | n :: rest => do
      let p ← asPlace n.kind (fragment mode n)
      pure (p :: (← places mode rest))

/-- Only here, directly in an array literal, may a pair stand. -/
def entries : List Node → CompileM (List Entry)
  | [] => pure []
  | .keyValuePair key value :: rest => do
      let key ← asValue (fragment .value key)
      let value ← asValue (fragment .value value)
      pure (.pair key value :: (← entries rest))
  | n :: rest => do
      let e ← asValue (fragment .value n)
      pure (.value e :: (← entries rest))

def indexKeys (mode : Mode) : List (Option Node) → CompileM (List (Option Expr))
  | [] => pure []
  | none :: rest => do
      require (allowsEmptyKey mode rest) .arrayIndex .indexRead
      pure (none :: (← indexKeys mode rest))
  | some key :: rest => do
      let e ← asValue (fragment .location key)
      pure (some e :: (← indexKeys mode rest))

def propertyKeys : List Node → CompileM (List (Option Expr))
  | [] => pure []
  | key :: rest => do
      let e ← asValue (fragment .location key)
      pure (some e :: (← propertyKeys rest))

/-- Applies operations from left to right. Only the first fragment of a chain that opens with an
assignment is a place. -/
def operations (assigns : Bool) (result : Fragment) : List (Operation Node) → CompileM Fragment
  | [] => pure result
  | ⟨token, operand⟩ :: rest => do
      match BinaryToken.ofSymbol token with
      | none => throw (.unsupportedOperator token .between)
      | some (.operator o) =>
          let right ← asValue (fragment .value operand)
          operations assigns (.value (.binary result.toExpr o right)) rest
      | some .assign =>
          match result with
          | .value _ => throw (.invalidAssignmentTarget .expression)
          | .place target =>
              if assigns && operand.isReference then do
                let p ← asPlace operand.kind (fragment .target operand)
                operations assigns (.value (.assign target (.reference p))) rest
              else do
                let e ← asValue (fragment .value operand)
                operations assigns (.value (.assign target (.value e))) rest

def methodCalls (object : Expr) : List (Call Node) → CompileM Expr
  | [] => pure object
  | ⟨method, arguments⟩ :: rest => do
      let method ← asValue (fragment .value method)
      let arguments ← values arguments
      methodCalls (.callMethod object method arguments) rest

/-- Each step tests the result of the step before. -/
def choices (condition : Expr) : List (Choice Node) → CompileM Expr
  | [] => pure condition
  | ⟨consequent, alternate⟩ :: rest => do
      let consequent ← asValue (fragment .value consequent)
      let alternate ← asValue (fragment .value alternate)
      choices (.conditional condition consequent alternate) rest
end

def valueOf (n : Node) : CompileM Expr := asValue (fragment .value n)

/-- The place a node names as something to write to. -/
def targetOf (n : Node) : CompileM Place := asPlace n.kind (fragment .target n)

end TreeScript.Compile
