import TreeScript.Code.Basic
import TreeScript.Tree.Basic

set_option autoImplicit false

/- What compiling shares: its errors, the locals and loops of the body at hand, and fragments. -/
namespace TreeScript

/-- Where in a tree a node stands. -/
inductive Position where
  | root | statement | expression | classMember | parameter | methodName | indexRead
  deriving Repr, DecidableEq

def Position.text : Position → String
  | .root => "program root"
  | .statement => "statement"
  | .expression => "expression"
  | .classMember => "class member"
  | .parameter => "parameter"
  | .methodName => "method name"
  | .indexRead => "index read"

/-- On which side of its operands an operator stands. -/
inductive Fixity where
  | before | after | between
  deriving Repr, DecidableEq

def Fixity.text : Fixity → String
  | .before => "prefix"
  | .after => "suffix"
  | .between => "binary"

inductive CompileError where
  | unsupportedConstruct (kind : Kind) (position : Position)
  | unsupportedOperator (token : String) (fixity : Fixity)
  | invalidAssignmentTarget (kind : Kind)
  deriving Repr, DecidableEq

def CompileError.message : CompileError → String
  | .unsupportedConstruct kind position =>
      "Unsupported construct: " ++ kind.tag ++ " in " ++ position.text ++ " position"
  | .unsupportedOperator token fixity =>
      "Unsupported " ++ fixity.text ++ " operator: '" ++ token ++ "'"
  | .invalidAssignmentTarget kind => "Cannot assign to " ++ kind.tag

namespace Compile

/-- The names a body has written to so far, in order of their first writing, and the number of
loops it has taken up. -/
structure Context where
  locals : List String
  loops : Nat
  deriving Repr, DecidableEq

abbrev CompileM := StateT Context (Except CompileError)

def addLocal (locals : List String) (name : String) : List String :=
  if locals.contains name then locals else locals ++ [name]

/-- A fresh body whose parameters are its first locals. -/
def Context.ofParameters (parameters : List String) : Context :=
  ⟨parameters.foldl addLocal [], 0⟩

def declare (name : String) : CompileM Unit :=
  modify fun c => { c with locals := addLocal c.locals name }

/-- Takes up the next loop of the body. -/
def nextLoop : CompileM Nat := fun c => pure (c.loops, { c with loops := c.loops + 1 })

/-- Compiles a body of its own; the surrounding one stays as it is. -/
def inBody {α : Type} (parameters : List String) (m : CompileM α) : CompileM (α × Context) :=
  fun outer => do
    let result ← m (Context.ofParameters parameters)
    pure (result, outer)

/-- What a node is wanted for: its value, a place to write to, or a place to read from. -/
inductive Mode where
  | value | target | location
  deriving Repr, DecidableEq

/-- A compiled expression node. -/
inductive Fragment where
  | value (e : Code.Expr)
  | place (p : Code.Place)

/-- A place serves as a value by loading from it. -/
def Fragment.toExpr : Fragment → Code.Expr
  | .value e => e
  | .place p => .load p

def Fragment.toBase : Fragment → Code.Base
  | .value e => .value e
  | .place p => .implied p

/-- A variable that is written to is a local of its body. -/
def declareFor (mode : Mode) (name : String) : CompileM Unit :=
  match mode with
  | .target => declare name
  | .value | .location => pure ()

/-- A place as the mode wants it. -/
def Fragment.ofPlace (mode : Mode) (p : Code.Place) : Fragment :=
  match mode with
  | .value => .value (.load p)
  | .target | .location => .place p

def asValue (m : CompileM Fragment) : CompileM Code.Expr := do
  pure (← m).toExpr

/-- A value cannot be assigned to; `kind` is that of the node. -/
def asPlace (kind : Kind) (m : CompileM Fragment) : CompileM Code.Place := do
  match ← m with
  | .place p => pure p
  | .value _ => throw (.invalidAssignmentTarget kind)

def unsupported {α : Type} (kind : Kind) (position : Position) : CompileM α :=
  throw (.unsupportedConstruct kind position)

/-- Goes on only where a construct is supported. -/
def require (supported : Bool) (kind : Kind) (position : Position) : CompileM Unit :=
  if supported then pure () else unsupported kind position

/-- Variable names come with or without their sigil. -/
def variableName (name : String) : String :=
  match name.toList with
  | '$' :: rest => String.ofList rest
  | _ => name

/-- Turns each backslash followed by `n` into a line feed. -/
def unescape : List Char → List Char
  | [] => []
  | '\\' :: 'n' :: rest => '\n' :: unescape rest
  | c :: rest => c :: unescape rest

end Compile
end TreeScript
