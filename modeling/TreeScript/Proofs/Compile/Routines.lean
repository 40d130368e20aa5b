import Mathlib.Data.List.Forall2
import TreeScript.Proofs.Compile.Blocks

set_option autoImplicit false

/- The functions and methods of compiled code, and the declarations of the tree they come from. Both
are listed in the order of the code, so that the two lists go side by side. -/
namespace TreeScript

namespace Code

/-- A function of compiled code, with whether it is the method of a class. -/
structure Routine where
  isMethod : Bool
  function : Function Stmt

mutual
/-- The functions and methods that a statement defines, at any depth: each is followed by those of
its own body. -/
def Stmt.routines : Stmt → List Routine
  | .ifElse _ consequent alternate => routinesOf consequent ++ routinesOf alternate
  | .foreach _ _ _ _ _ body => routinesOf body
  | .scoped body => routinesOf body
  | .defineFunction ⟨name, parameters, body, slots⟩ =>
      ⟨false, ⟨name, parameters, body, slots⟩⟩ :: routinesOf body
  | .defineClass ⟨_, _, methods⟩ => routinesOfMethods methods
  | _ => []

def routinesOf : Block → List Routine
  | [] => []
  | s :: rest => s.routines ++ routinesOf rest

def routinesOfMethods : List (String × Function Stmt) → List Routine
  | [] => []
  | (_, ⟨name, parameters, body, slots⟩) :: rest =>
      ⟨true, ⟨name, parameters, body, slots⟩⟩ :: routinesOf body ++ routinesOfMethods rest
end

theorem routinesOf_append (b b' : Block) :
    routinesOf (b ++ b') = routinesOf b ++ routinesOf b' := by
  induction b with
  | nil => rfl
  | cons s rest ih => rw [List.cons_append, routinesOf, routinesOf, ih, List.append_assoc]

theorem routinesOf_eq_nil {b : Block} (none : ∀ s ∈ b, s.routines = []) : routinesOf b = [] := by
  induction b with
  | nil => rfl
  | cons s rest ih =>
      obtain ⟨here, later⟩ := List.forall_mem_cons.mp none
      rw [routinesOf, here, ih later, List.nil_append]

theorem Stmt.routines_of_isPrologue {s : Stmt} (isPrologue : s.isPrologue = true) :
    s.routines = [] := by
  cases s with
  | defineVariables names => rw [Stmt.routines] <;> intros <;> contradiction
  | bindArgument name index => rw [Stmt.routines] <;> intros <;> contradiction
  | bindThis => rw [Stmt.routines] <;> intros <;> contradiction
  | _ => cases isPrologue

theorem routinesOfMethods_eq_flatMap (methods : List (String × Function Stmt)) :
    routinesOfMethods methods =
      methods.flatMap fun entry => ⟨true, entry.2⟩ :: routinesOf entry.2.body := by
  induction methods with
  | nil => rfl
  | cons entry rest ih =>
      rw [routinesOfMethods, ih]
      rfl

end Code

namespace Node

mutual
/-- The declarations of functions and methods in a statement, at any depth: each is followed by
those of its own body. -/
def routines : Node → List Node
  | .ifStatement _ consequent alternate =>
      groupRoutines true consequent ++ groupRoutines false consequent ++
        (groupRoutines true alternate ++ groupRoutines false alternate)
  | .foreachStatement _ _ _ statements =>
      groupRoutines true statements ++ groupRoutines false statements
  | .functionStatement name parameters statements =>
      .functionStatement name parameters statements ::
        (groupRoutines true statements ++ groupRoutines false statements)
  | .classStatement _ members => (memberRoutines [] members).flatMap (·.2)
  | _ => []

/-- The same for the declarations of a block, or for its other statements. -/
def groupRoutines (declarations : Bool) : List Node → List Node
  | [] => []
  | s :: rest =>
      if s.isDeclaration = declarations then s.routines ++ groupRoutines declarations rest
      else groupRoutines declarations rest

/-- The methods of a class by their names. A method repeated under one name takes the place of the
earlier one. -/
def memberRoutines (found : List (String × List Node)) : List Node → List (String × List Node)
  | [] => found
  | .methodDefinition (.string name) parameters statements :: rest =>
      memberRoutines (Assoc.set found name
        (.methodDefinition (.string name) parameters statements ::
          (groupRoutines true statements ++ groupRoutines false statements))) rest
  | _ :: rest => memberRoutines found rest
end

/-- The declarations of functions and methods in a block, which is walked with its own declarations
first. -/
def blockRoutines (statements : List Node) : List Node :=
  groupRoutines true statements ++ groupRoutines false statements

/-- The name of a parameter. -/
def parameter : Node → String
  | .variable name _ => Compile.variableName name
  | _ => ""

end Node

namespace Assoc

/-- What relates the values of two lists with the same keys goes on doing so when a key is set in
both. -/
theorem forall₂_set {α β γ : Type} [BEq α] {R : β → γ → Prop} {entries : List (α × β)}
    {entries' : List (α × γ)} {value : β} {value' : γ}
    (alike : List.Forall₂ (fun e e' => e.1 = e'.1 ∧ R e.2 e'.2) entries entries') (key : α)
    (related : R value value') :
    List.Forall₂ (fun e e' => e.1 = e'.1 ∧ R e.2 e'.2) (set entries key value)
      (set entries' key value') := by
  induction alike with
  | nil => exact .cons ⟨rfl, related⟩ .nil
  | @cons entry entry' rest rest' here later ih =>
      obtain ⟨k, v⟩ := entry
      obtain ⟨k', v'⟩ := entry'
      obtain ⟨rfl, here⟩ : k = k' ∧ R v v' := here
      rw [set, set]
      split
      · exact .cons ⟨rfl, related⟩ later
      · exact .cons ⟨rfl, here⟩ ih

end Assoc

namespace Compile

open Code (Stmt Block Function Routine routinesOf routinesOf_append routinesOfMethods_eq_flatMap)
open Node

/-- The routine is what the compiler makes of the declaration of a function or method. -/
inductive CompiledFrom : Node → Routine → Prop
  | function {parameters statements body context} (name)
      (compiled : block statements (.ofParameters (parameters.map parameter)) = .ok (body, context)) :
      CompiledFrom (.functionStatement name parameters statements)
        ⟨false, assembleFunction name (parameters.map parameter) false body context⟩
  | method {parameters statements body context} (name)
      (compiled : block statements (.ofParameters (parameters.map parameter)) = .ok (body, context)) :
      CompiledFrom (.methodDefinition (.string name) parameters statements)
        ⟨true, assembleFunction name (parameters.map parameter) true body context⟩

/-- These routines are compiled from these declarations, one from each. -/
abbrev AllCompiledFrom : List Node → List Routine → Prop := List.Forall₂ CompiledFrom

theorem parameterNames_granted (parameters : List Node) :
    Grants (fun names => names = parameters.map parameter) (parameters.mapM parameterName) := by
  induction parameters with
  | nil => exact .pure rfl
  | cons n rest ih =>
      have named : Grants (fun name => name = n.parameter) (parameterName n) := by
        cases n with
        | «variable» name reference => exact .pure rfl
        | _ => exact .throw _
      rw [List.mapM_cons]
      refine named.bind fun name isName => ih.bind fun names areNames => .pure ?_
      rw [isName, areNames, List.map_cons]

/-- Putting a function together adds no routine to those of its statements. -/
theorem routinesOf_assembleFunction (name : String) (parameters : List String) (isMethod : Bool)
    (statements : Block) (context : Context) :
    routinesOf (assembleFunction name parameters isMethod statements context).body =
      routinesOf statements := by
  obtain ⟨prologue, isBody, readies⟩ :=
    assembleFunction_body name parameters isMethod statements context
  have bare : routinesOf prologue = [] :=
    Code.routinesOf_eq_nil fun s member => Stmt.routines_of_isPrologue (readies s member)
  rw [isBody, routinesOf, Stmt.routines, routinesOf_append, bare]
  simp [routinesOf]

/-- What is put together is compiled from the declaration, and what is within from those of the
body. -/
theorem assembled_routines {name : String} {parameters : List String} {isMethod : Bool}
    {statements : Block} {context : Context} {declaration : Node} {inner : List Node}
    (compiled : CompiledFrom declaration
      ⟨isMethod, assembleFunction name parameters isMethod statements context⟩)
    (inside : AllCompiledFrom inner (routinesOf statements)) :
    AllCompiledFrom (declaration :: inner)
      (⟨isMethod, assembleFunction name parameters isMethod statements context⟩ ::
        routinesOf (assembleFunction name parameters isMethod statements context).body) := by
  rw [routinesOf_assembleFunction]
  exact .cons compiled inside

theorem block_routines_of {statements : List Node}
    (each : ∀ declarations, Grants
      (fun b => AllCompiledFrom (groupRoutines declarations statements) (routinesOf b))
      (selected declarations statements)) :
    Grants (fun b => AllCompiledFrom (blockRoutines statements) (routinesOf b))
      (block statements) := by
  refine (each true).bind fun b here => (each false).bind fun b' there => .pure ?_
  rw [routinesOf_append]
  exact List.rel_append here there

/-- Of a body of its own two things are known: that it is a compiled block, and its routines. -/
theorem inBody_routines (parameters : List String) {statements : List Node}
    (inside : Grants (fun b => AllCompiledFrom (blockRoutines statements) (routinesOf b))
      (block statements)) :
    Grants (fun result => block statements (.ofParameters parameters) = .ok result ∧
        AllCompiledFrom (blockRoutines statements) (routinesOf result.1))
      (inBody parameters (joined (selected true statements) (selected false statements))) :=
  (inBody_compiled parameters statements).imp fun _ compiled => ⟨compiled, inside.holds compiled⟩

/-- The method, and with it the routines of its body, is compiled from these declarations. -/
def MethodFrom (declared : List Node) (method : Function Stmt) : Prop :=
  AllCompiledFrom declared (⟨true, method⟩ :: routinesOf method.body)

/-- Each method of a class is compiled from the declarations found under its name. -/
def MethodsFrom (declared : List (String × List Node)) (methods : List (String × Function Stmt)) :
    Prop :=
  List.Forall₂ (fun e e' => e.1 = e'.1 ∧ MethodFrom e.2 e'.2) declared methods

theorem MethodsFrom.set {declared : List (String × List Node)}
    {methods : List (String × Function Stmt)} (compiled : MethodsFrom declared methods)
    (name : String) {nodes : List Node} {method : Function Stmt}
    (added : MethodFrom nodes method) :
    MethodsFrom (Assoc.set declared name nodes) (Assoc.set methods name method) :=
  Assoc.forall₂_set compiled name added

theorem MethodsFrom.routines {declared : List (String × List Node)}
    {methods : List (String × Function Stmt)} (compiled : MethodsFrom declared methods) :
    AllCompiledFrom (declared.flatMap (·.2)) (Code.routinesOfMethods methods) := by
  rw [routinesOfMethods_eq_flatMap]
  exact List.rel_flatMap compiled fun _ _ related => related.2

mutual
/-- The routines of a statement are compiled from the declarations in its node, one from each. -/
theorem statement_routines : (n : Node) →
    Grants (fun s => AllCompiledFrom n.routines s.routines) (statement n)
  | .echoStatement _ | .expressionStatement _ | .returnStatement _ => by
      rw [statement]
      refine (anything_granted _).bind fun _ _ => .pure ?_
      rw [routines, Stmt.routines]
      · exact .nil
      all_goals nofun
  | .inlineHtmlStatement html => by
      rw [statement]
      exact .pure .nil
  | .ifStatement condition consequent alternate => by
      rw [statement]
      refine (anything_granted _).bind fun _ _ => ?_
      refine (block_routines_of fun group => selected_routines group consequent).bind
        fun _ first => ?_
      refine (block_routines_of fun group => selected_routines group alternate).bind
        fun _ second => .pure ?_
      rw [routines, Stmt.routines]
      exact List.rel_append first second
  | .foreachStatement array key value statements => by
      rw [statement]
      refine (anything_granted _).bind fun _ _ => (anything_granted _).bind fun _ _ => ?_
      refine (anything_granted _).bind fun _ _ => (anything_granted _).bind fun _ _ => ?_
      refine (block_routines_of fun group => selected_routines group statements).bind
        fun _ inside => .pure ?_
      rw [routines, Stmt.routines]
      exact inside
  | .functionStatement name parameters statements => by
      rw [statement]
      refine (parameterNames_granted parameters).bind fun ps areNames => ?_
      refine (inBody_routines ps (block_routines_of fun group =>
        selected_routines group statements)).bind fun result inside => .pure ?_
      subst areNames
      exact assembled_routines (.function name inside.1) inside.2
  | .classStatement className members => by
      rw [statement]
      refine (anything_granted _).bind fun _ _ => ?_
      have none : MethodsFrom [] (⟨[], []⟩ : Members).methods := .nil
      refine (classMembers_routines members none).bind fun _ found => .pure ?_
      rw [routines, Stmt.routines]
      exact found.routines
  | .program .. | .methodDefinition .. | .propertyDefinition .. | .arrayIndex ..
  | .arrayLiteral .. | .boolean .. | .expression .. | .float .. | .functionCall ..
  | .integer .. | .keyValuePair .. | .list .. | .methodCall .. | .newExpression ..
  | .objectProperty .. | .string .. | .stringLiteral .. | .ternary .. | .unaryExpression ..
  | .variable .. | .void => .throw _

theorem selected_routines (declarations : Bool) : (nodes : List Node) →
    Grants (fun b => AllCompiledFrom (groupRoutines declarations nodes) (routinesOf b))
      (selected declarations nodes)
  | [] => by
      rw [selected]
      exact .pure .nil
  | n :: rest => by
      rw [selected, groupRoutines]
      split
      · refine (statement_routines n).bind fun _ here => ?_
        refine (selected_routines declarations rest).bind fun _ later => .pure ?_
        exact List.rel_append here later
      · exact selected_routines declarations rest

theorem classMembers_routines {declared : List (String × List Node)} :
    (members : List Node) → {found : Members} → MethodsFrom declared found.methods →
      Grants (fun found => MethodsFrom (memberRoutines declared members) found.methods)
        (classMembers found members)
  | [], _, compiled => by
      rw [classMembers]
      exact .pure compiled
  | member :: rest, _, compiled => by
      cases member with
      | propertyDefinition target value =>
          cases target with
          | «variable» name _ =>
              rw [classMembers, memberRoutines]
              · exact (anything_granted _).bind fun _ _ => classMembers_routines rest compiled
              · nofun
          | _ => exact .throw _
      | methodDefinition name parameters statements =>
          cases name with
          | string name =>
              rw [classMembers, memberRoutines]
              refine (parameterNames_granted parameters).bind fun ps areNames => ?_
              refine (inBody_routines ps (block_routines_of fun group =>
                selected_routines group statements)).bind fun result inside => ?_
              subst areNames
              have method := assembled_routines (.method name inside.1) inside.2
              exact classMembers_routines rest (compiled.set name method)
          | _ => exact .throw _
      | _ => exact .throw _
end

theorem block_routines (statements : List Node) :
    Grants (fun b => AllCompiledFrom (blockRoutines statements) (routinesOf b)) (block statements) :=
  block_routines_of fun group => selected_routines group statements

end Compile
end TreeScript
