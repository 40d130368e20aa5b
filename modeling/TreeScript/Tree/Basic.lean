set_option autoImplicit false

/- Syntax trees as a parser hands them over. Statements, class members and expressions share one
type; which kinds may stand where is decided when a tree is compiled. -/
namespace TreeScript

inductive Kind where
  | program | classStatement | echoStatement | expressionStatement | foreachStatement
  | functionStatement | ifStatement | inlineHtmlStatement | returnStatement | methodDefinition
  | propertyDefinition | arrayIndex | arrayLiteral | boolean | expression | float | functionCall
  | integer | keyValuePair | list | methodCall | newExpression | objectProperty | string
  | stringLiteral | ternary | unaryExpression | variable | void
  deriving Repr, DecidableEq

namespace Kind

/-- All kinds, in the order that gives each its number. -/
def all : List Kind :=
  [.program, .classStatement, .echoStatement, .expressionStatement, .foreachStatement,
    .functionStatement, .ifStatement, .inlineHtmlStatement, .returnStatement, .methodDefinition,
    .propertyDefinition, .arrayIndex, .arrayLiteral, .boolean, .expression, .float,
    .functionCall, .integer, .keyValuePair, .list, .methodCall, .newExpression, .objectProperty,
    .string, .stringLiteral, .ternary, .unaryExpression, .variable, .void]

/-- The tag a tree carries for the kind. -/
def tag : Kind → String
  | .program => "N_PROGRAM"
  | .classStatement => "N_CLASS_STATEMENT"
  | .echoStatement => "N_ECHO_STATEMENT"
  | .expressionStatement => "N_EXPRESSION_STATEMENT"
  | .foreachStatement => "N_FOREACH_STATEMENT"
  | .functionStatement => "N_FUNCTION_STATEMENT"
  | .ifStatement => "N_IF_STATEMENT"
  | .inlineHtmlStatement => "N_INLINE_HTML_STATEMENT"
  | .returnStatement => "N_RETURN_STATEMENT"
  | .methodDefinition => "N_METHOD_DEFINITION"
  | .propertyDefinition => "N_PROPERTY_DEFINITION"
  | .arrayIndex => "N_ARRAY_INDEX"
  | .arrayLiteral => "N_ARRAY_LITERAL"
  | .boolean => "N_BOOLEAN"
  | .expression => "N_EXPRESSION"
  | .float => "N_FLOAT"
  | .functionCall => "N_FUNCTION_CALL"
  | .integer => "N_INTEGER"
  | .keyValuePair => "N_KEY_VALUE_PAIR"
  | .list => "N_LIST"
  | .methodCall => "N_METHOD_CALL"
  | .newExpression => "N_NEW_EXPRESSION"
  | .objectProperty => "N_OBJECT_PROPERTY"
  | .string => "N_STRING"
  | .stringLiteral => "N_STRING_LITERAL"
  | .ternary => "N_TERNARY"
  | .unaryExpression => "N_UNARY_EXPRESSION"
  | .variable => "N_VARIABLE"
  | .void => "N_VOID"

def ofTag (tag : String) : Option Kind := all.find? (·.tag == tag)

theorem mem_all (k : Kind) : k ∈ all := by cases k <;> decide

theorem ofTag_tag (k : Kind) : ofTag k.tag = some k := by cases k <;> decide

end Kind

/-- One step of an operator chain. -/
structure Operation (α : Type) where
  operator : String
  operand : α

/-- One step of a method call chain. -/
structure Call (α : Type) where
  method : α
  arguments : List α

/-- One step of a conditional chain. -/
structure Choice (α : Type) where
  consequent : α
  alternate : α

inductive Node where
  | program (statements : List Node)
  | classStatement (className : Node) (members : List Node)
  | echoStatement (expression : Node)
  | expressionStatement (expression : Node)
  | foreachStatement (array : Node) (key : Option Node) (value : Node) (statements : List Node)
  | functionStatement (name : String) (parameters : List Node) (statements : List Node)
  | ifStatement (condition : Node) (consequent alternate : List Node)
  | inlineHtmlStatement (html : String)
  | returnStatement (expression : Option Node)
  | methodDefinition (name : Node) (parameters : List Node) (statements : List Node)
  | propertyDefinition (target : Node) (value : Option Node)
  /-- An index of `none` is the append form, an empty pair of brackets. -/
  | arrayIndex (array : Node) (indices : List (Option Node)) (reference : Bool)
  | arrayLiteral (elements : List Node)
  | boolean (value : Bool)
  /-- An operand and the operations applied to it from left to right. -/
  | expression (left : Node) (right : List (Operation Node))
  | float (number : Float)
  | functionCall (function : Node) (arguments : List Node)
  | integer (number : Int64)
  | keyValuePair (key value : Node)
  | list (elements : List Node)
  | methodCall (object : Node) (calls : List (Call Node))
  | newExpression (className : Node) (arguments : List Node)
  | objectProperty (object : Node) (properties : List Node) (reference : Bool)
  /-- A bare word: a name, or a constant such as null. -/
  | string (text : String)
  /-- A quoted text, its escapes still as written. -/
  | stringLiteral (text : String)
  | ternary (condition : Node) (options : List (Choice Node))
  | unaryExpression (operator : String) (operand : Node) (leading : Bool)
  | variable (name : String) (reference : Bool)
  /-- An omitted slot of a list. -/
  | void

namespace Node

instance : Inhabited Node := ⟨.void⟩

def kind : Node → Kind
  | .program .. => .program
  | .classStatement .. => .classStatement
  | .echoStatement .. => .echoStatement
  | .expressionStatement .. => .expressionStatement
  | .foreachStatement .. => .foreachStatement
  | .functionStatement .. => .functionStatement
  | .ifStatement .. => .ifStatement
  | .inlineHtmlStatement .. => .inlineHtmlStatement
  | .returnStatement .. => .returnStatement
  | .methodDefinition .. => .methodDefinition
  | .propertyDefinition .. => .propertyDefinition
  | .arrayIndex .. => .arrayIndex
  | .arrayLiteral .. => .arrayLiteral
  | .boolean .. => .boolean
  | .expression .. => .expression
  | .float .. => .float
  | .functionCall .. => .functionCall
  | .integer .. => .integer
  | .keyValuePair .. => .keyValuePair
  | .list .. => .list
  | .methodCall .. => .methodCall
  | .newExpression .. => .newExpression
  | .objectProperty .. => .objectProperty
  | .string .. => .string
  | .stringLiteral .. => .stringLiteral
  | .ternary .. => .ternary
  | .unaryExpression .. => .unaryExpression
  | .variable .. => .variable
  | .void => .void

/-- Function and class declarations, which come first in their block. -/
def isDeclaration : Node → Bool
  | .functionStatement .. | .classStatement .. => true
  | _ => false

/-- Whether the node is marked to be bound by reference. -/
def isReference : Node → Bool
  | .variable _ reference | .arrayIndex _ _ reference | .objectProperty _ _ reference => reference
  | _ => false

end Node
end TreeScript
