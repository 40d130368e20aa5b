import TreeScript.Proofs.Compile.Routines
import TreeScript.Proofs.Compile.Writes

set_option autoImplicit false

/- What the bodies of a compiled program declare. The program, each function and each method declare
the variables that they write to, and no others, in one statement at their beginning. -/
namespace TreeScript

namespace Code

mutual
/-- The lists of names that the declarations in a statement have, at any depth. Functions that it
defines have declarations of their own, which are not among them. -/
def Stmt.declared : Stmt → List (List String)
  | .defineVariables names => [names]
  | .ifElse _ consequent alternate => declaredIn consequent ++ declaredIn alternate
  | .foreach _ _ _ _ _ body => declaredIn body
  | .scoped body => declaredIn body
  | _ => []

def declaredIn : Block → List (List String)
  | [] => []
  | s :: rest => s.declared ++ declaredIn rest
end

theorem declaredIn_append (b b' : Block) :
    declaredIn (b ++ b') = declaredIn b ++ declaredIn b' := by
  induction b with
  | nil => rfl
  | cons s rest ih => rw [List.cons_append, declaredIn, declaredIn, ih, List.append_assoc]

theorem declaredIn_eq_nil {b : Block} (none : ∀ s ∈ b, s.declared = []) : declaredIn b = [] := by
  induction b with
  | nil => rfl
  | cons s rest ih =>
      obtain ⟨here, later⟩ := List.forall_mem_cons.mp none
      rw [declaredIn, here, ih later, List.nil_append]

/-- The code declares these names, each once: in a single statement that comes before every other,
and not at all where there are none. -/
structure DeclaresExactly (names : List String) (b : Block) : Prop where
  distinct : names.Nodup
  single : declaredIn b = if names = [] then [] else [names]
  first : names ≠ [] → b.head? = some (.defineVariables names)

theorem declaresExactly {names : List String} (distinct : names.Nodup) {b : Block}
    (others : declaredIn b = []) : DeclaresExactly names (declarations names ++ b) := by
  cases names with
  | nil => exact ⟨distinct, others, fun some_ => absurd rfl some_⟩
  | cons name rest =>
      have single : declarations (name :: rest) = [.defineVariables (name :: rest)] := rfl
      refine ⟨distinct, ?_, fun _ => by rw [single]; rfl⟩
      rw [declaredIn_append, others, single]
      rfl

end Code

namespace Compile

open Code (Stmt Block Function Routine DeclaresExactly declaredIn declaredIn_append
  declaredIn_eq_nil declaresExactly)
open Node

theorem block_declaresNothing_of {statements : List Node}
    (each : ∀ declarations, Grants (fun b => declaredIn b = []) (selected declarations statements)) :
    Grants (fun b => declaredIn b = []) (block statements) := by
  refine (each true).bind fun b here => (each false).bind fun b' there => .pure ?_
  rw [declaredIn_append, here, there]
  rfl

mutual
/-- No statement declares variables: only what is put around the statements of a body does. -/
theorem statement_declaresNothing : (n : Node) → Grants (fun s => s.declared = []) (statement n)
  | .echoStatement _ | .expressionStatement _ | .returnStatement _ => by
      rw [statement]
      refine (anything_granted _).bind fun _ _ => .pure ?_
      rw [Stmt.declared] <;> nofun
  | .inlineHtmlStatement html => by
      rw [statement]
      exact .pure rfl
  | .ifStatement condition consequent alternate => by
      rw [statement]
      refine (anything_granted _).bind fun _ _ => ?_
      refine (block_declaresNothing_of fun group => selected_declaresNothing group consequent).bind
        fun _ first => ?_
      refine (block_declaresNothing_of fun group => selected_declaresNothing group alternate).bind
        fun _ second => .pure ?_
      rw [Stmt.declared, first, second]
      rfl
  | .foreachStatement array key value statements => by
      rw [statement]
      refine (anything_granted _).bind fun _ _ => (anything_granted _).bind fun _ _ => ?_
      refine (anything_granted _).bind fun _ _ => (anything_granted _).bind fun _ _ => ?_
      refine (block_declaresNothing_of fun group => selected_declaresNothing group statements).bind
        fun _ inside => .pure ?_
      rw [Stmt.declared, inside]
  | .functionStatement name parameters statements => by
      rw [statement]
      refine (anything_granted _).bind fun _ _ => (anything_granted _).bind fun _ _ => .pure ?_
      rw [Stmt.declared] <;> nofun
  | .classStatement className members => by
      rw [statement]
      refine (anything_granted _).bind fun _ _ => (anything_granted _).bind fun _ _ => .pure ?_
      rw [Stmt.declared] <;> nofun
  | .program .. | .methodDefinition .. | .propertyDefinition .. | .arrayIndex ..
  | .arrayLiteral .. | .boolean .. | .expression .. | .float .. | .functionCall ..
  | .integer .. | .keyValuePair .. | .list .. | .methodCall .. | .newExpression ..
  | .objectProperty .. | .string .. | .stringLiteral .. | .ternary .. | .unaryExpression ..
  | .variable .. | .void => .throw _

theorem selected_declaresNothing (declarations : Bool) :
    (nodes : List Node) → Grants (fun b => declaredIn b = []) (selected declarations nodes)
  | [] => by
      rw [selected]
      exact .pure rfl
  | n :: rest => by
      rw [selected]
      split
      · refine (statement_declaresNothing n).bind fun _ here => ?_
        refine (selected_declaresNothing declarations rest).bind fun _ later => .pure ?_
        rw [declaredIn, here, later]
        rfl
      · exact selected_declaresNothing declarations rest
end

theorem block_declaresNothing (statements : List Node) :
    Grants (fun b => declaredIn b = []) (block statements) :=
  block_declaresNothing_of fun group => selected_declaresNothing group statements

/-- The locals of a body: its parameters, then the variables in write position of its statements,
each name where it first occurs. -/
def bodyLocals (parameters : List String) (statements : List Node) : List String :=
  (parameters ++ blockWrites statements).eraseDups

/-- The compiler finds the locals of a body. -/
theorem locals_of_block {parameters : List String} {statements : List Node} {body : Block}
    {context : Context}
    (compiled : block statements (.ofParameters parameters) = .ok (body, context)) :
    context.locals = bodyLocals parameters statements := by
  rw [(block_adds statements).locals compiled, Context.ofParameters, ← List.foldl_append,
    foldl_addLocal_nil, bodyLocals]

theorem nodup_bodyLocals (parameters : List String) (statements : List Node) :
    (bodyLocals parameters statements).Nodup := by
  rw [bodyLocals, ← foldl_addLocal_nil]
  exact nodup_foldl_addLocal _ List.nodup_nil

/-- The routine has the name and the parameters of its declaration, and its body is one scope that
declares its locals exactly. -/
inductive DeclaresLocals : Node → Routine → Prop
  | function {parameters statements body slots} (name)
      (declared : DeclaresExactly (bodyLocals (parameters.map parameter) statements) body) :
      DeclaresLocals (.functionStatement name parameters statements)
        ⟨false, ⟨name, parameters.map parameter, [.scoped body], slots⟩⟩
  | method {parameters statements body slots} (name)
      (declared : DeclaresExactly (bodyLocals (parameters.map parameter) statements) body) :
      DeclaresLocals (.methodDefinition (.string name) parameters statements)
        ⟨true, ⟨name, parameters.map parameter, [.scoped body], slots⟩⟩

/-- The scope of a function that is put together: after the declaration nothing is declared. -/
theorem declaresExactly_scope {parameters : List String} {statements : List Node} {body : Block}
    {context : Context} (isMethod : Bool)
    (compiled : block statements (.ofParameters parameters) = .ok (body, context)) :
    DeclaresExactly (bodyLocals parameters statements)
      (Code.declarations context.locals ++ (if isMethod then [.bindThis] else []) ++
        (parameters.mapIdx fun index name => .bindArgument name index) ++ body) := by
  have receiver : declaredIn (if isMethod then [.bindThis] else []) = [] := by
    cases isMethod <;> rfl
  have arguments : declaredIn (parameters.mapIdx fun index name => .bindArgument name index) = [] :=
    declaredIn_eq_nil fun s member => by
      obtain ⟨_, _, rfl⟩ := List.mem_mapIdx.mp member
      rfl
  have within : declaredIn body = [] := (block_declaresNothing statements).holds compiled
  rw [locals_of_block compiled, List.append_assoc, List.append_assoc]
  apply declaresExactly (nodup_bodyLocals parameters statements)
  rw [declaredIn_append, declaredIn_append, receiver, arguments, within]
  rfl

theorem CompiledFrom.declares {n : Node} {r : Routine} (compiled : CompiledFrom n r) :
    DeclaresLocals n r := by
  cases compiled with
  | function name compiled => exact .function name (declaresExactly_scope false compiled)
  | method name compiled => exact .method name (declaresExactly_scope true compiled)

/-- A compiled program declares the variables in write position of its statements, and the functions
and methods in it, taken in the order of their declarations, each declare their parameters and the
variables in write position of their own statements; all this exactly. -/
theorem program_declares_locals {t : Node} {p : Code.Program} (compiled : program t = .ok p) :
    ∃ statements, t = .program statements ∧
      p.locals = bodyLocals [] statements ∧
      DeclaresExactly p.locals p.statements ∧
      List.Forall₂ DeclaresLocals (blockRoutines statements) (Code.routinesOf p.body) := by
  obtain ⟨statements, isProgram, ran⟩ := program_compiled compiled
  have isFresh : (⟨[], 0⟩ : Context) = .ofParameters [] := rfl
  have locals : p.locals = bodyLocals [] statements := locals_of_block (isFresh ▸ ran)
  have within : declaredIn p.body = [] := (block_declaresNothing statements).holds ran
  refine ⟨statements, isProgram, locals, ?_, ?_⟩
  · apply declaresExactly _ within
    rw [locals]
    exact nodup_bodyLocals [] statements
  · exact ((block_routines statements).holds ran).imp fun _ _ compiled => compiled.declares

/-- A program in which names are written to in a list, as the base of a chain, in a loop and in the
default of a property, and in which a function repeats a parameter and declares another. -/
theorem program_declares_locals_nested :
    let name (x : String) : Node := .variable x false
    let store (x y : Node) : Node := .expressionStatement (.expression x [⟨"=", y⟩])
    let inner : Node := .functionStatement "g" [] [store (name "hidden") (name "x")]
    let outer : Node := .functionStatement "f" [name "$x", name "y", name "x"]
      [store (.list [name "y", .arrayIndex (name "z") [none, some (name "i")] false]) (name "r"),
        inner]
    let method : Node := .methodDefinition (.string "m") [] [.returnStatement none]
    let declared : Node := .classStatement (.string "C")
      [.propertyDefinition (name "p") (some (.unaryExpression "++" (name "n") true)), method]
    let loop : Node := .foreachStatement (name "a") (some (name "k")) (name "v")
      [.expressionStatement (.unaryExpression "--" (name "k") false), declared]
    ∃ p, program (.program [loop, outer]) = .ok p ∧ p.locals = ["k", "v", "n"] ∧
      DeclaresExactly p.locals p.statements ∧
      bodyLocals ["x", "y", "x"] [inner, store (.list [name "y",
        .arrayIndex (name "z") [none, some (name "i")] false]) (name "r")] = ["x", "y", "z"] ∧
      List.Forall₂ DeclaresLocals [outer, inner, method] (Code.routinesOf p.body) := by
  intro name store inner outer method declared loop
  obtain ⟨p, compiled⟩ : ∃ p, program (.program [loop, outer]) = .ok p := ⟨_, rfl⟩
  obtain ⟨_, ⟨⟩, locals, exact_, each⟩ := program_declares_locals compiled
  exact ⟨p, compiled, locals.trans (by decide), exact_, by decide, each⟩

end Compile
end TreeScript
