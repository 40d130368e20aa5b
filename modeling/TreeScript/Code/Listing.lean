import TreeScript.Code.Basic
import TreeScript.Decimal.Layout
import TreeScript.Text.Quoted

set_option autoImplicit false

/- Code as text: a method-call listing, one statement a line, blocks indented. -/
namespace TreeScript.Code

/-- Doubles are positional from `1e-4` up to but not including `1e16`, and always show a point or
an exponent; of two equally near forms the greater magnitude is taken. -/
def floatLayout : Decimal.Layout := ⟨.up, -4, 15, "", "NaN", "inf", "-inf"⟩

def commaSeparated (parts : List String) : String := ", ".intercalate parts

mutual
def Expr.text : Expr → String
  | .null => "null"
  | .boolean b => if b then "true" else "false"
  | .integer n => toString n.toInt
  | .float x => floatLayout.write x
  | .string s => Text.quote s
  | .array entries => "[" ++ commaSeparated (entryTexts entries) ++ "]"
  | .load place => place.text ++ ".getValue()"
  | .binary left operator right =>
      left.text ++ "." ++ operator.name ++ "(" ++ right.text ++ ")"
  | .assign target source => target.text ++ source.text
  | .unary operator operand => operand.text ++ "." ++ operator.name ++ "()"
  | .call function arguments =>
      "namespace.getFunction(" ++ function.text ++ ")(" ++
        commaSeparated (exprTexts arguments) ++ ")"
  | .callMethod object method arguments =>
      object.text ++ ".callMethod(" ++ method.text ++ ", [" ++
        commaSeparated (exprTexts arguments) ++ "])"
  | .instantiate className arguments =>
      "createInstance(" ++ className.text ++ ", [" ++
        commaSeparated (exprTexts arguments) ++ "])"
  | .conditional condition consequent alternate =>
      "(" ++ condition.text ++ ".coerceToBoolean() ? " ++ consequent.text ++ " : " ++
        alternate.text ++ ")"

def Entry.text : Entry → String
  | .value e => e.text
  | .pair key value => key.text ++ " => " ++ value.text

/-- What follows the target of an assignment. -/
def Source.text : Source → String
  | .value e => ".setValue(" ++ e.text ++ ")"
  | .reference p => ".setReference(" ++ p.text ++ ".getReference())"

def Operand.text : Operand → String
  | .value e => e.text
  | .place p => p.text

def Place.text : Place → String
  | .variable name => "$" ++ name
  | .element base (some key) => base.text ++ ".getElementByKey(" ++ key.text ++ ")"
  | .element base none => base.text ++ ".pushElement()"
  | .nullReference => "nullReference"
  | .list places => "list(" ++ commaSeparated (placeTexts places) ++ ")"

def Base.text : Base → String
  | .value e => e.text
  | .implied p => "implyArray(" ++ p.text ++ ")"

def exprTexts : List Expr → List String
  | [] => []
  | e :: rest => e.text :: exprTexts rest

def entryTexts : List Entry → List String
  | [] => []
  | e :: rest => e.text :: entryTexts rest

def placeTexts : List Place → List String
  | [] => []
  | p :: rest => p.text :: placeTexts rest
end

def indented (lines : List String) : List String := lines.map ("    " ++ ·)

def parameterList (names : List String) : String := commaSeparated (names.map ("$" ++ ·))

def propertyLines (properties : List (String × Expr)) : List String :=
  properties.map fun (name, value) => Text.quote name ++ ": " ++ value.text ++ ","

/-- The lines that take up a loop, before its body. -/
def loopOpening (slot : Nat) (array : Expr) (key : Option Place) (value : Place)
    (byReference : Bool) : List String :=
  let n := toString slot
  let element := "array_" ++ n ++ ".getElementByIndex(pointer_" ++ n ++ ")"
  let keyLines := match key with
    | some key =>
        [key.text ++ ".setValue(array_" ++ n ++ ".getKeyByIndex(pointer_" ++ n ++ "));"]
    | none => []
  let valueLine :=
    if byReference then value.text ++ ".setReference(" ++ element ++ ".getReference());"
    else value.text ++ ".setValue(" ++ element ++ ".getValue());"
  ["array_" ++ n ++ " = " ++ array.text ++ ".reset();",
    "length_" ++ n ++ " = array_" ++ n ++ ".getLength();",
    "pointer_" ++ n ++ " = 0;",
    "while (pointer_" ++ n ++ " < length_" ++ n ++ ") \x7b"] ++
    indented (keyLines ++ [valueLine, "pointer_" ++ n ++ "++;"])

mutual
def Stmt.lines : Stmt → List String
  | .defineVariables names =>
      ["scope.defineVariables([" ++ commaSeparated (names.map Text.quote) ++ "]);"]
  | .bindArgument name index =>
      ["$" ++ name ++ ".setValue(arguments[" ++ toString index ++ "]);"]
  | .bindThis => ["$this.setValue(this);"]
  | .echo e => ["stdout.write(" ++ e.text ++ ".coerceToString());"]
  | .inlineHtml html => ["stdout.write(" ++ Text.quote html ++ ");"]
  | .expression e => [e.text ++ ";"]
  | .ifElse condition consequent alternate =>
      ["if (" ++ condition.text ++ ".coerceToBoolean()) \x7b"] ++ indented (blockLines consequent) ++
        ["\x7d else \x7b"] ++ indented (blockLines alternate) ++ ["\x7d"]
  | .foreach slot array key value byReference body =>
      loopOpening slot array key value byReference ++ indented (blockLines body) ++ ["\x7d"]
  | .ret (some e) => ["return " ++ e.text ++ ";"]
  | .ret none => ["return;"]
  | .defineFunction ⟨name, parameters, body, _⟩ =>
      ["namespace.defineFunction(" ++ Text.quote name ++ ", function (" ++
          parameterList parameters ++ ") \x7b"] ++ indented (blockLines body) ++ ["\x7d);"]
  | .defineClass ⟨name, properties, methods⟩ =>
      ["namespace.defineClass(" ++ name.text ++ ", \x7b"] ++
        indented (["properties: \x7b"] ++ indented (propertyLines properties) ++ ["\x7d,"] ++
          ["methods: \x7b"] ++ indented (methodLines methods) ++ ["\x7d,"]) ++
        ["\x7d);"]
  | .scoped body =>
      ["try \x7b"] ++ indented ("scopeChain.push(new Scope());" :: blockLines body) ++
        ["\x7d finally \x7b"] ++ indented ["scopeChain.pop();"] ++ ["\x7d"]

def methodLines : List (String × Function Stmt) → List String
  | [] => []
  | (key, ⟨_, parameters, body, _⟩) :: rest =>
      [Text.quote key ++ ": function (" ++ parameterList parameters ++ ") \x7b"] ++
        indented (blockLines body) ++ ["\x7d,"] ++ methodLines rest

def blockLines : List Stmt → List String
  | [] => []
  | s :: rest => s.lines ++ blockLines rest
end

/-- Every line, ended by a line feed. -/
def listing (block : Block) : String :=
  (blockLines block).foldl (fun text line => text ++ line ++ "\n") ""

def Program.listing (p : Program) : String := Code.listing p.statements

end TreeScript.Code
