import TreeScript.Json.Reader
import TreeScript.Tree.Basic

set_option autoImplicit false

/- Trees from JSON. A node is an object with its kind under `name`, or an array that opens with
the kind and lists the fields in declared order. -/
namespace TreeScript.Tree

/-- The fields of a record by their declared names, an absent one as `none`. A declared name may
stand only once; other names are passed over. A positional record has no surplus items. -/
def fields (declared : List String) : Json → Option (List (Option Json))
  | .object given =>
      declared.mapM fun name =>
        match given.filter (·.1 == name) with
        | [] => some none
        | [(_, j)] => some (some j)
        | _ => none
  | .array items =>
      if items.length ≤ declared.length then
        some (items.map some ++ List.replicate (declared.length - items.length) none)
      else none
  | _ => none

/-- The kind a tag names; inside a tree the number of a kind serves as well. -/
def readKind (nested : Bool) : Json → Option Kind
  | .string tag => Kind.ofTag tag
  | .number (.natural n) => if nested then Kind.all[n.toNat]? else none
  | _ => none

/-- Splits a node into its kind and the record of its fields. -/
def tagged (nested : Bool) : Json → Option (Kind × Json)
  | .object given =>
      match given.filter (·.1 == "name") with
      | [(_, tag)] => do
          let kind ← readKind nested tag
          some (kind, .object (given.filter (·.1 != "name")))
      | _ => none
  | .array (tag :: items) => do
      let kind ← readKind nested tag
      some (kind, .array items)
  | _ => none

def readString : Json → Option String
  | .string s => some s
  | _ => none

def readBool : Json → Option Bool
  | .bool b => some b
  | _ => none

/-- Only a whole number of the signed 64-bit range. -/
def readInteger : Json → Option Int64
  | .number (.natural n) => if n.toNat < 9223372036854775808 then some n.toInt64 else none
  | .number (.negative n) => some n
  | _ => none

def readFloat : Json → Option Float
  | .number (.natural n) => some n.toFloat
  | .number (.negative n) => some n.toFloat
  | .number (.real x) => some x
  | _ => none

def readList {α : Type} (read : Json → Option α) : Json → Option (List α)
  | .array items => items.mapM read
  | _ => none

/-- A field that must be present. -/
def required {α : Type} (read : Json → Option α) : Option Json → Option α
  | none => none
  | some j => read j

/-- A field that may be left out, but not be null. -/
def defaulted {α : Type} (default : α) (read : Json → Option α) : Option Json → Option α
  | none => some default
  | some j => read j

/-- A field that may be left out or null. -/
def optional {α : Type} (read : Json → Option α) : Option Json → Option (Option α)
  | none | some .null => some none
  | some j => (read j).map some

def readOperation (node : Json → Option Node) (j : Json) : Option (Operation Node) := do
  match ← fields ["operator", "operand"] j with
  | [operator, operand] =>
      some ⟨← required readString operator, ← required node operand⟩
  | _ => none

def readCall (node : Json → Option Node) (j : Json) : Option (Call Node) := do
  match ← fields ["func", "args"] j with
  | [method, arguments] =>
      some ⟨← required node method, ← defaulted [] (readList node) arguments⟩
  | _ => none

def readChoice (node : Json → Option Node) (j : Json) : Option (Choice Node) := do
  match ← fields ["consequent", "alternate"] j with
  | [consequent, alternate] => some ⟨← required node consequent, ← required node alternate⟩
  | _ => none

def readIndex (node : Json → Option Node) (j : Json) : Option (Option Node) := do
  match ← fields ["index"] j with
  | [index] => optional node index
  | _ => none

def readProperty (node : Json → Option Node) (j : Json) : Option Node := do
  match ← fields ["property"] j with
  | [property] => required node property
  | _ => none

/-- The declared fields of each kind. -/
def declaredFields : Kind → List String
  | .program => ["statements"]
  | .classStatement => ["className", "members"]
  | .echoStatement => ["expression"]
  | .expressionStatement => ["expression"]
  | .foreachStatement => ["array", "key", "value", "statements"]
  | .functionStatement => ["func", "args", "statements"]
  | .ifStatement => ["condition", "consequentStatements", "alternateStatements"]
  | .inlineHtmlStatement => ["html"]
  | .returnStatement => ["expression"]
  | .methodDefinition => ["func", "args", "statements"]
  | .propertyDefinition => ["variable", "value"]
  | .arrayIndex => ["array", "indices", "reference"]
  | .arrayLiteral => ["elements"]
  | .boolean => ["bool"]
  | .expression => ["left", "right"]
  | .float => ["number"]
  | .functionCall => ["func", "args"]
  | .integer => ["number"]
  | .keyValuePair => ["key", "value"]
  | .list => ["elements"]
  | .methodCall => ["object", "calls"]
  | .newExpression => ["className", "args"]
  | .objectProperty => ["object", "properties", "reference"]
  | .string => ["string"]
  | .stringLiteral => ["string"]
  | .ternary => ["condition", "options"]
  | .unaryExpression => ["operator", "operand", "prefix"]
  | .variable => ["variable", "reference"]
  | .void => []

/-- Assembles a node of the given kind from its fields, in declared order. -/
def assemble (node : Json → Option Node) (kind : Kind) (given : List (Option Json)) :
    Option Node := do
  let nodes := readList node
  match kind, given with
  | .program, [statements] => some (.program (← required nodes statements))
  | .classStatement, [className, members] =>
      some (.classStatement (← required node className) (← defaulted [] nodes members))
  | .echoStatement, [expression] => some (.echoStatement (← required node expression))
  | .expressionStatement, [expression] =>
      some (.expressionStatement (← required node expression))
  | .foreachStatement, [array, key, value, statements] =>
      some (.foreachStatement (← required node array) (← optional node key)
        (← required node value) (← defaulted [] nodes statements))
  | .functionStatement, [name, parameters, statements] =>
      some (.functionStatement (← required readString name) (← defaulted [] nodes parameters)
        (← defaulted [] nodes statements))
  | .ifStatement, [condition, consequent, alternate] =>
      some (.ifStatement (← required node condition) (← defaulted [] nodes consequent)
        (← defaulted [] nodes alternate))
  | .inlineHtmlStatement, [html] => some (.inlineHtmlStatement (← required readString html))
  | .returnStatement, [expression] => some (.returnStatement (← optional node expression))
  | .methodDefinition, [name, parameters, statements] =>
      some (.methodDefinition (← required node name) (← defaulted [] nodes parameters)
        (← defaulted [] nodes statements))
  | .propertyDefinition, [target, value] =>
      some (.propertyDefinition (← required node target) (← optional node value))
  | .arrayIndex, [array, indices, reference] =>
      some (.arrayIndex (← required node array) (← required (readList (readIndex node)) indices)
        (← defaulted false readBool reference))
  | .arrayLiteral, [elements] => some (.arrayLiteral (← defaulted [] nodes elements))
  | .boolean, [value] => some (.boolean (← required readBool value))
  | .expression, [left, right] =>
      some (.expression (← required node left)
        (← defaulted [] (readList (readOperation node)) right))
  | .float, [number] => some (.float (← required readFloat number))
  | .functionCall, [function, arguments] =>
      some (.functionCall (← required node function) (← defaulted [] nodes arguments))
  | .integer, [number] => some (.integer (← required readInteger number))
  | .keyValuePair, [key, value] =>
      some (.keyValuePair (← required node key) (← required node value))
  | .list, [elements] => some (.list (← required nodes elements))
  | .methodCall, [object, calls] =>
      some (.methodCall (← required node object) (← required (readList (readCall node)) calls))
  | .newExpression, [className, arguments] =>
      some (.newExpression (← required node className) (← defaulted [] nodes arguments))
  | .objectProperty, [object, properties, reference] =>
      some (.objectProperty (← required node object)
        (← required (readList (readProperty node)) properties)
        (← defaulted false readBool reference))
  | .string, [text] => some (.string (← required readString text))
  | .stringLiteral, [text] => some (.stringLiteral (← required readString text))
  | .ternary, [condition, options] =>
      some (.ternary (← required node condition)
        (← required (readList (readChoice node)) options))
  | .unaryExpression, [operator, operand, leading] =>
      some (.unaryExpression (← required readString operator) (← required node operand)
        (← defaulted true readBool leading))
  | .variable, [name, reference] =>
      some (.variable (← required readString name) (← defaulted false readBool reference))
  | .void, [] => some .void
  | _, _ => none

/-- Reads a node that nests at most so deep. -/
def readNode (nested : Bool) : Nat → Json → Option Node
  | 0, _ => none
  | depth + 1, j => do
      let (kind, record) ← tagged nested j
      let given ← fields (declaredFields kind) record
      assemble (readNode true depth) kind given

/-- The tree a JSON value describes. -/
def ofJson (j : Json) : Option Node := readNode false (j.depth + 1) j

/-- The greatest nesting a tree text may have. -/
def nestingLimit : Nat := 127

/-- The tree a text describes. -/
def ofText (text : String) : Option Node := (Json.read nestingLimit text).bind ofJson

end TreeScript.Tree
