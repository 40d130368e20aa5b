import TreeScript.Json.Writer
import TreeScript.Tree.Basic

set_option autoImplicit false

/- Trees to JSON. Every field is written, an absent one as null. -/
namespace TreeScript.Node

/-- An object that opens with the kind of a node. -/
def record (kind : Kind) (fields : List (String × Json)) : Json :=
  .object (("name", .string kind.tag) :: fields)

mutual
def toJson : Node → Json
  | .program statements => record .program [("statements", .array (toJsons statements))]
  | .classStatement className members =>
      record .classStatement
        [("className", className.toJson), ("members", .array (toJsons members))]
  | .echoStatement operand => record .echoStatement [("expression", operand.toJson)]
  | .expressionStatement operand =>
      record .expressionStatement [("expression", operand.toJson)]
  | .foreachStatement array key value statements =>
      record .foreachStatement
        [("array", array.toJson), ("key", optionToJson key), ("value", value.toJson),
          ("statements", .array (toJsons statements))]
  | .functionStatement name parameters statements =>
      record .functionStatement
        [("func", .string name), ("args", .array (toJsons parameters)),
          ("statements", .array (toJsons statements))]
  | .ifStatement condition consequent alternate =>
      record .ifStatement
        [("condition", condition.toJson), ("consequentStatements", .array (toJsons consequent)),
          ("alternateStatements", .array (toJsons alternate))]
  | .inlineHtmlStatement html => record .inlineHtmlStatement [("html", .string html)]
  | .returnStatement operand =>
      record .returnStatement [("expression", optionToJson operand)]
  | .methodDefinition name parameters statements =>
      record .methodDefinition
        [("func", name.toJson), ("args", .array (toJsons parameters)),
          ("statements", .array (toJsons statements))]
  | .propertyDefinition target value =>
      record .propertyDefinition
        [("variable", target.toJson), ("value", optionToJson value)]
  | .arrayIndex array indices reference =>
      record .arrayIndex
        [("array", array.toJson), ("indices", .array (indicesToJson indices)),
          ("reference", .bool reference)]
  | .arrayLiteral elements => record .arrayLiteral [("elements", .array (toJsons elements))]
  | .boolean value => record .boolean [("bool", .bool value)]
  | .expression left right =>
      record .expression [("left", left.toJson), ("right", .array (operationsToJson right))]
  | .float number => record .float [("number", .number (.real number))]
  | .functionCall function arguments =>
      record .functionCall
        [("func", function.toJson), ("args", .array (toJsons arguments))]
  | .integer number => record .integer [("number", Json.ofInt64 number)]
  | .keyValuePair key value =>
      record .keyValuePair [("key", key.toJson), ("value", value.toJson)]
  | .list elements => record .list [("elements", .array (toJsons elements))]
  | .methodCall object calls =>
      record .methodCall [("object", object.toJson), ("calls", .array (callsToJson calls))]
  | .newExpression className arguments =>
      record .newExpression
        [("className", className.toJson), ("args", .array (toJsons arguments))]
  | .objectProperty object properties reference =>
      record .objectProperty
        [("object", object.toJson), ("properties", .array (propertiesToJson properties)),
          ("reference", .bool reference)]
  | .string text => record .string [("string", .string text)]
  | .stringLiteral text => record .stringLiteral [("string", .string text)]
  | .ternary condition options =>
      record .ternary
        [("condition", condition.toJson), ("options", .array (choicesToJson options))]
  | .unaryExpression operator operand leading =>
      record .unaryExpression
        [("operator", .string operator), ("operand", operand.toJson), ("prefix", .bool leading)]
  | .variable name reference =>
      record .variable [("variable", .string name), ("reference", .bool reference)]
  | .void => record .void []

def toJsons : List Node → List Json
  | [] => []
  | n :: rest => n.toJson :: toJsons rest

def optionToJson : Option Node → Json
  | none => .null
  | some n => n.toJson

def indicesToJson : List (Option Node) → List Json
  | [] => []
  | index :: rest => .object [("index", optionToJson index)] :: indicesToJson rest

def propertiesToJson : List Node → List Json
  | [] => []
  | property :: rest => .object [("property", property.toJson)] :: propertiesToJson rest

def operationsToJson : List (Operation Node) → List Json
  | [] => []
  | ⟨operator, operand⟩ :: rest =>
      .object [("operator", .string operator), ("operand", operand.toJson)] ::
        operationsToJson rest

def callsToJson : List (Call Node) → List Json
  | [] => []
  | ⟨method, arguments⟩ :: rest =>
      .object [("func", method.toJson), ("args", .array (toJsons arguments))] ::
        callsToJson rest

def choicesToJson : List (Choice Node) → List Json
  | [] => []
  | ⟨consequent, alternate⟩ :: rest =>
      .object [("consequent", consequent.toJson), ("alternate", alternate.toJson)] ::
        choicesToJson rest
end

/-- The text of a tree. -/
def toText (n : Node) : String := n.toJson.write

end TreeScript.Node
