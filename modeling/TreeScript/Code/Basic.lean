import TreeScript.Operator

set_option autoImplicit false

/- Compiled code. An expression yields a value, a place resolves to a location that can be read,
assigned or bound by reference, and a statement is run for its effect. -/
namespace TreeScript.Code

mutual
inductive Expr where
  | null
  | boolean (b : Bool)
  | integer (n : Int64)
  | float (x : Float)
  | string (s : String)
  | array (entries : List Entry)
  /-- The value now at a place. -/
  | load (place : Place)
  | binary (left : Expr) (operator : BinaryOperator) (right : Expr)
  | assign (target : Place) (source : Source)
  | unary (operator : UnaryOperator) (operand : Operand)
  | call (function : Expr) (arguments : List Expr)
  | callMethod (object : Expr) (method : Expr) (arguments : List Expr)
  | instantiate (className : Expr) (arguments : List Expr)
  | conditional (condition consequent alternate : Expr)

/-- An entry of an array literal. -/
inductive Entry where
  | value (e : Expr)
  | pair (key value : Expr)

/-- The right-hand side of an assignment. -/
inductive Source where
  | value (e : Expr)
  | reference (p : Place)

inductive Operand where
  | value (e : Expr)
  | place (p : Place)

inductive Place where
  /-- A variable of the current scope. -/
  | variable (name : String)
  /-- An array element or object property; without a key a new element. -/
  | element (base : Base) (key : Option Expr)
  /-- A slot of its own, holding null. -/
  | nullReference
  | list (places : List Place)

/-- The container in which an element is looked up. -/
inductive Base where
  | value (e : Expr)
  /-- A place where a null is first replaced by an empty array. -/
  | implied (p : Place)
end

/-- A function over bodies of type `α`; `loopSlots` counts the loops its body numbers. -/
structure Function (α : Type) where
  name : String
  parameters : List String
  body : List α
  loopSlots : Nat

/-- A class: property defaults and methods, each under its name. -/
structure ClassDefinition (α : Type) where
  name : Expr
  properties : List (String × Expr)
  methods : List (String × Function α)

inductive Stmt where
  | defineVariables (names : List String)
  /-- Copies an argument of the call into a parameter. -/
  | bindArgument (name : String) (index : Nat)
  /-- Binds the receiver of a method call. -/
  | bindThis
  | echo (e : Expr)
  | inlineHtml (html : String)
  | expression (e : Expr)
  | ifElse (condition : Expr) (consequent alternate : List Stmt)
  /-- `slot` numbers the loop within its function. -/
  | foreach (slot : Nat) (array : Expr) (key : Option Place) (value : Place)
      (byReference : Bool) (body : List Stmt)
  | ret (e : Option Expr)
  | defineFunction (function : Function Stmt)
  | defineClass (definition : ClassDefinition Stmt)
  /-- Runs the body in a scope of its own. -/
  | scoped (body : List Stmt)

abbrev Block := List Stmt

instance : Inhabited Expr := ⟨.null⟩

instance : Inhabited Place := ⟨.nullReference⟩

instance : Inhabited Stmt := ⟨.bindThis⟩

/-- A compiled program. Its body does not declare the locals. -/
structure Program where
  body : Block
  locals : List String
  loopSlots : Nat

/-- The declaration of a body's locals, absent when there are none. -/
def declarations (locals : List String) : Block :=
  if locals.isEmpty then [] else [.defineVariables locals]

/-- The body after the declaration of its locals. -/
def Program.statements (p : Program) : Block := declarations p.locals ++ p.body

end TreeScript.Code
