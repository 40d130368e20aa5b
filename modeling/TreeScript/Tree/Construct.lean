import TreeScript.Tree.Basic

set_option autoImplicit false

/- Short forms for building trees by hand. -/
namespace TreeScript.Node

def named (name : String) : Node := .variable name false

def namedByReference (name : String) : Node := .variable name true

def function (name : String) (parameters : List String) (statements : List Node) : Node :=
  .functionStatement name (parameters.map named) statements

def classNamed (name : String) (members : List Node) : Node :=
  .classStatement (.string name) members

def method (name : String) (parameters : List String) (statements : List Node) : Node :=
  .methodDefinition (.string name) (parameters.map named) statements

def property (name : String) (value : Option Node) : Node :=
  .propertyDefinition (named name) value

def chain (left : Node) (operations : List (String × Node)) : Node :=
  .expression left (operations.map fun (operator, operand) => ⟨operator, operand⟩)

def binary (left : Node) (operator : String) (right : Node) : Node :=
  chain left [(operator, right)]

def assign (target value : Node) : Node := binary target "=" value

/-- Marks a variable or an access to be bound by reference; other nodes carry no mark. -/
def withReference : Node → Node
  | .variable name _ => .variable name true
  | .arrayIndex array indices _ => .arrayIndex array indices true
  | .objectProperty object properties _ => .objectProperty object properties true
  | other => other

def assignReference (target source : Node) : Node := binary target "=" (withReference source)

def call (name : String) (arguments : List Node) : Node :=
  .functionCall (.string name) arguments

def index (base : Node) (indices : List (Option Node)) : Node := .arrayIndex base indices false

def properties (object : Node) (names : List String) : Node :=
  .objectProperty object (names.map .string) false

def instantiate (className : String) (arguments : List Node) : Node :=
  .newExpression (.string className) arguments

def callMethod (object : Node) (name : String) (arguments : List Node) : Node :=
  .methodCall object [⟨.string name, arguments⟩]

def conditional (condition consequent alternate : Node) : Node :=
  .ternary condition [⟨consequent, alternate⟩]

end TreeScript.Node
