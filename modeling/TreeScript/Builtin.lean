import TreeScript.Location

set_option autoImplicit false

/- The functions and classes that come with the language. -/
namespace TreeScript

namespace Builtin

def name : Builtin → String
  | .strlen => "strlen"
  | .strtoupper => "strtoupper"
  | .strtolower => "strtolower"
  | .strRepeat => "str_repeat"
  | .strrev => "strrev"
  | .count => "count"
  | .arrayKeys => "array_keys"
  | .arrayValues => "array_values"
  | .inArray => "in_array"
  | .implode => "implode"
  | .gettype => "gettype"
  | .isArray => "is_array"
  | .isInt => "is_int"
  | .isString => "is_string"
  | .isNull => "is_null"
  | .intval => "intval"
  | .strval => "strval"
  | .print => "print"
  | .varDump => "var_dump"
  | .readline => "readline"
  | .exceptionConstruct => "__construct"
  | .exceptionGetMessage => "getMessage"

/-- The functions, in the groups in which they are installed. -/
def groups : List (String × List Builtin) :=
  [("string", [.strlen, .strtoupper, .strtolower, .strRepeat, .strrev]),
    ("array", [.count, .arrayKeys, .arrayValues, .inArray, .implode]),
    ("variable", [.gettype, .isArray, .isInt, .isString, .isNull, .intval, .strval]),
    ("output", [.print, .varDump]),
    ("input", [.readline])]

/-- The classes, in the order in which they are installed. -/
def classes : List ClassData :=
  [⟨"stdClass", [], []⟩,
    ((⟨"Exception", [("message", .string "")], []⟩ : ClassData).defineMethod "__construct"
      (.builtin .exceptionConstruct)).defineMethod "getMessage" (.builtin .exceptionGetMessage)]

def installFunctions (n : Namespace) : List Builtin → Namespace
  | [] => n
  | b :: rest => installFunctions (n.defineFunction b.name (.builtin b)) rest

def installClasses (n : Namespace) (st : Store) : List ClassData → Namespace × Store
  | [] => (n, st)
  | data :: rest =>
      let (c, st) := st.newClass data
      installClasses (n.defineClass data.name c) st rest

/-- Defines every function and class in a namespace. -/
def install (n : Namespace) (st : Store) : Namespace × Store :=
  installClasses (installFunctions n (groups.flatMap (·.2))) st classes

/-! Arguments -/

/-- An argument; a missing one reads as null. -/
def argument (arguments : List Value) (index : Nat) : Value := arguments[index]?.getD .null

def textArgument (arguments : List Value) (index : Nat) : Run String :=
  Run.inspect (·.toText (argument arguments index))

/-- Refuses an argument, counted from 1 in the message. -/
def refuse {α : Type} (function : String) (index : Nat) (expected : String) (given : Value) :
    Run α :=
  Run.fail (.invalidArgument function
    ("parameter " ++ toString (index + 1) ++ " to be " ++ expected ++ ", " ++ given.typeTag ++
      " given"))

def arrayArgument (function : String) (arguments : List Value) (index : Nat) : Run ArrayId :=
  match argument arguments index with
  | .array a => pure a
  | other => refuse function index "array" other

/-- The receiver of a method. -/
def receiver (method : String) : Option Value → Run ObjectId
  | some (.object o) => pure o
  | _ => Run.fail (.nonObjectMethodCall method)

/-- Copies of the values of an array. -/
def valuesOf (held : List Handle) (a : ArrayId) : Run (List Value) := do
  copiedValues held ((← Run.inspect (·.array a)).elements.map (·.2))

/-! Texts -/

/-- Repeats a text; a negative count is refused. -/
def strRepeatBody (arguments : List Value) : Run Value := do
  let text ← textArgument arguments 0
  let times := argument arguments 1
  let count := (← Run.inspect (·.toInteger times)).toInt
  if count < 0 then refuse "str_repeat" 1 "greater than or equal to 0" times
  else if text == "" then pure (.string "")
  else pure (.string (String.join (List.replicate count.toNat text)))

/-! Arrays -/

/-- The size of an array, 0 for null, and 1 for anything else. -/
def countBody (st : Store) : Value → Int
  | .array a => (st.array a).size
  | .null => 0
  | _ => 1

/-- Whether a value is among others, compared strictly or loosely. -/
def isAmong (strict : Bool) (needle : Value) : List Value → Run Bool
  | [] => pure false
  | v :: rest => do
      let st ← Run.inspect id
      if ← Run.ending (if strict then st.identical v needle else st.looselyEqual v needle) then
        pure true
      else isAmong strict needle rest

def inArrayBody (held : List Handle) (arguments : List Value) : Run Value := do
  let needle := argument arguments 0
  let haystack ← arrayArgument "in_array" arguments 1
  let strict ← Run.inspect (·.toBoolean (argument arguments 2))
  let values ← valuesOf held haystack
  pure (.boolean (← isAmong strict needle values))

/-- The glue may come before or after the pieces, or not at all. -/
def glueAndPieces (arguments : List Value) : Run (String × ArrayId) :=
  match argument arguments 0, argument arguments 1 with
  | .array pieces, .null => pure ("", pieces)
  | .array pieces, glue => do pure (← Run.inspect (·.toText glue), pieces)
  | glue, _ => do pure (← Run.inspect (·.toText glue), ← arrayArgument "implode" arguments 1)

def implodeBody (held : List Handle) (arguments : List Value) : Run Value := do
  let (glue, pieces) ← glueAndPieces arguments
  let values ← valuesOf held pieces
  let st ← Run.inspect id
  pure (.string (glue.intercalate (values.map st.toText)))

/-! Types -/

def typeName : Value → String
  | .null => "NULL"
  | .boolean _ => "boolean"
  | .integer _ => "integer"
  | .float _ => "double"
  | .string _ => "string"
  | .array _ => "array"
  | .object _ => "object"

/-! Input -/

def writePrompt (prompt : String) : Run Unit := if prompt = "" then pure () else Run.write prompt

/-- Writes the prompt unless it is empty; false at the end of the input. -/
def readlineBody (arguments : List Value) : Run Value := do
  writePrompt (← textArgument arguments 0)
  match ← Run.readLine with
  | some line => pure (.string line)
  | none => pure (.boolean false)

/-! Exceptions -/

def exceptionConstructBody (this : Option Value) (arguments : List Value) : Run Value := do
  let o ← receiver "__construct" this
  let message ← textArgument arguments 0
  Run.alter (·.put (.property o "message") (.string message))
  pure .null

def exceptionGetMessageBody (this : Option Value) : Run Value := do
  let o ← receiver "getMessage" this
  pure ((← Run.inspect (·.property? o "message")).getD .null)

/-- Calls a builtin; `held` includes the arguments. -/
def call (held : List Handle) (b : Builtin) (this : Option Value) (arguments : List Value) :
    Run Value :=
  let first := argument arguments 0
  match b with
  | .strlen => do pure (.integer (Int64.ofNat (← textArgument arguments 0).utf8ByteSize))
  | .strtoupper => do pure (.string ((← textArgument arguments 0).map Char.toUpper))
  | .strtolower => do pure (.string ((← textArgument arguments 0).map Char.toLower))
  | .strRepeat => strRepeatBody arguments
  | .strrev => do pure (.string (String.ofList (← textArgument arguments 0).toList.reverse))
  | .count => do pure (.integer (.ofInt (countBody (← Run.inspect id) first)))
  | .arrayKeys => do
      let a ← arrayArgument "array_keys" arguments 0
      let keys := (Assoc.keys (← Run.inspect (·.array a)).elements).map Key.toValue
      listOf keys
  | .arrayValues => do
      let a ← arrayArgument "array_values" arguments 0
      listOf (← valuesOf held a)
  | .inArray => inArrayBody held arguments
  | .implode => implodeBody held arguments
  | .gettype => pure (.string (typeName first))
  | .isArray => pure (.boolean (first matches .array _))
  | .isInt => pure (.boolean (first matches .integer _))
  | .isString => pure (.boolean (first matches .string _))
  | .isNull => pure (.boolean first.isNull)
  | .intval => do pure (.integer (← Run.inspect (·.toInteger first)))
  | .strval => do pure (.string (← textArgument arguments 0))
  | .print => do
      Run.write (← textArgument arguments 0)
      pure (.integer 1)
  | .varDump => do
      let st ← Run.inspect id
      Run.write (String.join (arguments.map (st.dump 0)))
      pure .null
  | .readline => readlineBody arguments
  | .exceptionConstruct => exceptionConstructBody this arguments
  | .exceptionGetMessage => exceptionGetMessageBody this

end Builtin

def Callable.name : Callable → String
  | .user f => f.name
  | .builtin b => b.name

end TreeScript
