import TreeScript.Assoc
import TreeScript.Compile.Expression

set_option autoImplicit false

/- Statements, function bodies, classes and whole programs. -/
namespace TreeScript.Compile

open Code (Expr Place Stmt Block Function ClassDefinition)

def optionalValue : Option Node → CompileM (Option Expr)
  | none => pure none
  | some n => do pure (some (← valueOf n))

def optionalTarget : Option Node → CompileM (Option Place)
  | none => pure none
  | some n => do pure (some (← targetOf n))

def parameterName : Node → CompileM String
  | .variable name _ => pure (variableName name)
  | other => unsupported other.kind .parameter

/-- Puts together a function: its locals are declared first, then the receiver of a method and
the arguments are bound, all in a scope of its own. -/
def assembleFunction (name : String) (parameters : List String) (isMethod : Bool)
    (statements : Block) (body : Context) : Function Stmt :=
  let receiver : Block := if isMethod then [.bindThis] else []
  let arguments : Block := parameters.mapIdx fun index name => .bindArgument name index
  { name, parameters, loopSlots := body.loops,
    body := [.scoped (Code.declarations body.locals ++ receiver ++ arguments ++ statements)] }

/-- A block in two parts: the declarations come first, then the rest. -/
def joined (declarations others : CompileM Block) : CompileM Block := do
  pure ((← declarations) ++ (← others))

/-- The members of a class found so far. -/
structure Members where
  properties : List (String × Expr)
  methods : List (String × Function Stmt)

mutual
def statement : Node → CompileM Stmt
  | .echoStatement operand => do pure (.echo (← valueOf operand))
  | .expressionStatement operand => do pure (.expression (← valueOf operand))
  | .inlineHtmlStatement html => pure (.inlineHtml html)
  | .returnStatement operand => do pure (.ret (← optionalValue operand))
  | .ifStatement condition consequent alternate => do
      let condition ← valueOf condition
      let consequent ← joined (selected true consequent) (selected false consequent)
      let alternate ← joined (selected true alternate) (selected false alternate)
      pure (.ifElse condition consequent alternate)
  | .foreachStatement array key value statements => do
      let array ← valueOf array
      let key ← optionalTarget key
      let byReference := value.isReference
      let value ← targetOf value
      let slot ← nextLoop
      let body ← joined (selected true statements) (selected false statements)
      pure (.foreach slot array key value byReference body)
  | .functionStatement name parameters statements => do
      let parameters ← parameters.mapM parameterName
      let (body, context) ← inBody parameters
        (joined (selected true statements) (selected false statements))
      pure (.defineFunction (assembleFunction name parameters false body context))
  | .classStatement className members => do
      let name ← valueOf className
      let found ← classMembers ⟨[], []⟩ members
      pure (.defineClass ⟨name, found.properties, found.methods⟩)
  | other => unsupported other.kind .statement

/-- Compiles the declarations of a block, or its other statements, in order. -/
def selected (declarations : Bool) : List Node → CompileM Block
  | [] => pure []
  | s :: rest =>
      if s.isDeclaration = declarations then do
        let s ← statement s
        pure (s :: (← selected declarations rest))
      else selected declarations rest

/-- A member repeated under one name takes the place of the earlier one. -/
def classMembers (found : Members) : List Node → CompileM Members
  | [] => pure found
  | .propertyDefinition (.variable name _) value :: rest => do
      let default := (← optionalValue value).getD .null
      classMembers
        { found with properties := Assoc.set found.properties (variableName name) default } rest
  | .propertyDefinition target _ :: _ => unsupported target.kind .classMember
  | .methodDefinition (.string name) parameters statements :: rest => do
      let parameters ← parameters.mapM parameterName
      let (body, context) ← inBody parameters
        (joined (selected true statements) (selected false statements))
      let method := assembleFunction name parameters true body context
      classMembers { found with methods := Assoc.set found.methods name method } rest
  | .methodDefinition name _ _ :: _ => unsupported name.kind .methodName
  | other :: _ => unsupported other.kind .classMember
end

/-- Compiles a block: its declarations come first, in their order, then the rest in its order. -/
def block (statements : List Node) : CompileM Block :=
  joined (selected true statements) (selected false statements)

/-- Compiles a whole tree. -/
def program : Node → Except CompileError Code.Program
  | .program statements => do
      let (body, context) ← (block statements).run ⟨[], 0⟩
      pure ⟨body, context.locals, context.loops⟩
  | other => throw (.unsupportedConstruct other.kind .root)

end TreeScript.Compile
