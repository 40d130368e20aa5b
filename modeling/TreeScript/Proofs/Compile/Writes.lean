import Mathlib.Data.List.Induction
import Mathlib.Data.List.Nodup
import TreeScript.Proofs.Compile.Accepted
import TreeScript.Proofs.Compile.Blocks
import TreeScript.Proofs.Compile.Locals
import TreeScript.Proofs.Compile.Reading

set_option autoImplicit false

/- Which variables a tree writes to. A walk over the tree lists them by their positions alone; the
compiler adds to the locals of a body the names of this walk, one after the other. -/
namespace TreeScript

open Compile (variableName)

/-! The walk -/

/-- What the left operand of an operator is taken for. -/
def assignedUse (operator : String) : Use := if operator == "=" then .write else .read

/-- What the right operand of an operator is taken for: what an assignment binds by reference is
written to as well. -/
def sourceUse (operator : String) (operand : Node) : Use :=
  if operator == "=" && operand.isReference then .write else .read

/-- What the operand of an operator before or after it is taken for. -/
def operandUse (operator : String) : Use :=
  if operator == "++" || operator == "--" then .write else .read

namespace Node

mutual
/-- The variables in write position of an expression, as they stand in it from left to right. `use`
tells whether the expression itself is in write position. There, so are the members of a list, the
base of a chain of indices or properties, and what stands in a group; nothing else is. -/
def writes (use : Use) : Node → List String
  | .variable name _ =>
      match use with
      | .write => [variableName name]
      | .read => []
  | .arrayIndex array indices _ => array.writes use ++ writesInIndices indices
  | .objectProperty object properties _ => object.writes use ++ writesInAll .read properties
  | .list elements => writesInAll use elements
  | .expression left [] => left.writes use
  | .expression left (⟨operator, operand⟩ :: rest) =>
      left.writes (assignedUse operator) ++ operand.writes (sourceUse operator operand) ++
        writesInOperations rest
  | .unaryExpression operator operand _ => operand.writes (operandUse operator)
  | .functionCall function arguments => function.writes .read ++ writesInAll .read arguments
  | .methodCall object calls => object.writes .read ++ writesInCalls calls
  | .newExpression className arguments => className.writes .read ++ writesInAll .read arguments
  | .ternary condition options => condition.writes .read ++ writesInChoices options
  | .arrayLiteral elements => writesInAll .read elements
  | .keyValuePair key value => key.writes .read ++ value.writes .read
  | _ => []

def writesInAll (use : Use) : List Node → List String
  | [] => []
  | n :: rest => n.writes use ++ writesInAll use rest

def writesInIndices : List (Option Node) → List String
  | [] => []
  | none :: rest => writesInIndices rest
  | some key :: rest => key.writes .read ++ writesInIndices rest

/-- Past the first operation of a chain nothing is in write position. -/
def writesInOperations : List (Operation Node) → List String
  | [] => []
  | ⟨_, operand⟩ :: rest => operand.writes .read ++ writesInOperations rest

def writesInCalls : List (Call Node) → List String
  | [] => []
  | ⟨method, arguments⟩ :: rest =>
      method.writes .read ++ writesInAll .read arguments ++ writesInCalls rest

def writesInChoices : List (Choice Node) → List String
  | [] => []
  | ⟨consequent, alternate⟩ :: rest =>
      consequent.writes .read ++ alternate.writes .read ++ writesInChoices rest
end

def writesInOption (use : Use) : Option Node → List String
  | none => []
  | some n => n.writes use

mutual
/-- The variables in write position of a statement, not counting the bodies of functions and
methods. -/
def statementWrites : Node → List String
  | .echoStatement e | .expressionStatement e => e.writes .read
  | .returnStatement e => writesInOption .read e
  | .ifStatement condition consequent alternate =>
      condition.writes .read ++ (groupWrites true consequent ++ groupWrites false consequent) ++
        (groupWrites true alternate ++ groupWrites false alternate)
  | .foreachStatement array key value statements =>
      array.writes .read ++ writesInOption .write key ++ value.writes .write ++
        (groupWrites true statements ++ groupWrites false statements)
  | .classStatement className members => className.writes .read ++ memberWrites members
  | _ => []

/-- The same for the declarations of a block, or for its other statements. -/
def groupWrites (declarations : Bool) : List Node → List String
  | [] => []
  | s :: rest =>
      if s.isDeclaration = declarations then s.statementWrites ++ groupWrites declarations rest
      else groupWrites declarations rest

/-- Of the members of a class only the defaults of properties are in the body around. -/
def memberWrites : List Node → List String
  | [] => []
  | .propertyDefinition _ value :: rest => writesInOption .read value ++ memberWrites rest
  | _ :: rest => memberWrites rest
end

/-- The variables in write position of a block, which is walked with its declarations first. -/
def blockWrites (statements : List Node) : List String :=
  groupWrites true statements ++ groupWrites false statements

end Node

namespace Compile

open Code (Expr Place Entry Stmt Block)
open Node

/-! Adding locals -/

/-- Where a part of the compiler succeeds, it has added these names to the locals, in this order. -/
structure Adds {α : Type} (names : List String) (m : CompileM α) : Prop where
  locals : ∀ {c a c'}, m c = .ok (a, c') → c'.locals = names.foldl addLocal c.locals

section rules

variable {α β : Type} {names more : List String} {m : CompileM α}

theorem Adds.pure (a : α) : Adds [] (Pure.pure a : CompileM α) := by
  refine ⟨?_⟩
  rintro c _ _ ⟨⟩
  rfl

theorem Adds.throw (e : CompileError) : Adds names (throw e : CompileM α) := ⟨nofun⟩

theorem Adds.bind {next : α → CompileM β} (first : Adds names m)
    (later : ∀ a, Adds more (next a)) : Adds (names ++ more) (m >>= next) := by
  refine ⟨fun done => ?_⟩
  obtain ⟨a, c', ran, done⟩ := bind_eq_ok.mp done
  rw [(later a).locals done, first.locals ran, List.foldl_append]

/-- What follows adds nothing. -/
theorem Adds.then {next : α → CompileM β} (first : Adds names m)
    (later : ∀ a, Adds [] (next a)) : Adds names (m >>= next) := by
  have both := first.bind later
  rwa [List.append_nil] at both

/-- What comes first adds nothing. -/
theorem Adds.after {next : α → CompileM β} (first : Adds [] m)
    (later : ∀ a, Adds more (next a)) : Adds more (m >>= next) := first.bind later

theorem require_adds (supported : Bool) (kind : Kind) (position : Position) :
    Adds [] (require supported kind position) := by
  unfold require
  split
  · exact .pure ()
  · exact .throw _

theorem nextLoop_adds : Adds [] nextLoop := by
  refine ⟨?_⟩
  rintro c _ _ ⟨⟩
  rfl

theorem inBody_adds (parameters : List String) (m : CompileM α) : Adds [] (inBody parameters m) :=
  ⟨fun done => congrArg Context.locals (inBody_context done)⟩

theorem declareFor_adds (mode : Mode) (name : String) (reference : Bool) :
    Adds ((Node.variable name reference).writes mode.use) (declareFor mode (variableName name)) := by
  cases mode with
  | target =>
      refine ⟨?_⟩
      rintro c _ _ ⟨⟩
      rfl
  | value | location => exact .pure ()

end rules

/-! Expressions -/

theorem asValue_adds {names : List String} {m : CompileM Fragment} (adds : Adds names m) :
    Adds names (asValue m) := adds.then fun f => .pure f.toExpr

theorem asPlace_adds {names : List String} {m : CompileM Fragment} (kind : Kind)
    (adds : Adds names m) : Adds names (asPlace kind m) := by
  refine adds.then fun f => ?_
  cases f with
  | value e => exact .throw _
  | place p => exact .pure p

theorem accessFragment_adds (mode : Mode) (kind : Kind) (base : Fragment)
    (keys : List (Option Expr)) : Adds [] (accessFragment mode kind base keys) := by
  unfold accessFragment
  simp only
  split
  · exact .pure _
  · exact .throw _

theorem use_baseMode (mode : Mode) : (baseMode mode).use = mode.use := by cases mode <;> rfl

/-- The operators that write back are those whose operand is in write position. -/
theorem operandUse_of_ofSymbol {token : String} {leading : Bool} {operator : UnaryOperator}
    (known : UnaryOperator.ofSymbol token leading = some operator) :
    operandUse token = if operator.writesBack then .write else .read := by
  by_cases steps : (token == "++" || token == "--") = true
  · have listed : token ∈ ["++", "--"] := by simpa using steps
    obtain ⟨other, isOther, writes⟩ := ofSymbol_increment listed leading
    obtain rfl : operator = other := by simpa [known] using isOther
    rw [operandUse, if_pos steps, if_pos writes]
  · have still := writesBack_eq_false known (Bool.eq_false_iff.mpr steps)
    rw [operandUse, if_neg steps, still]
    rfl

mutual
/-- The compiler declares what the walk over an expression lists. -/
theorem fragment_adds (mode : Mode) : (n : Node) → Adds (n.writes mode.use) (fragment mode n)
  | .variable name reference => by
      rw [fragment]
      exact (declareFor_adds mode name reference).then fun _ => .pure _
  | .arrayIndex array indices _ => by
      rw [fragment, writes, ← use_baseMode mode]
      refine (require_adds _ _ _).after fun _ => ?_
      refine (fragment_adds (baseMode mode) array).bind fun base => ?_
      exact (indexKeys_adds mode indices).then fun keys => accessFragment_adds mode _ base keys
  | .objectProperty object properties _ => by
      rw [fragment, writes, ← use_baseMode mode]
      refine (require_adds _ _ _).after fun _ => ?_
      refine (fragment_adds (baseMode mode) object).bind fun base => ?_
      exact (propertyKeys_adds properties).then fun keys => accessFragment_adds mode _ base keys
  | .expression left [] => by
      rw [fragment, writes]
      exact fragment_adds mode left
  | .expression left (⟨operator, operand⟩ :: rest) => by
      rw [fragment, writes, List.append_assoc]
      split
      · next assigns =>
          have isTarget : assignedUse operator = Mode.target.use := if_pos assigns
          rw [isTarget]
          refine (asPlace_adds _ (fragment_adds .target left)).bind fun p => ?_
          -- The first operation writes to the place; those after it find a value.
          unfold operations
          rw [beq_iff_eq.mp assigns]
          simp only [ofSymbol_eq_assign.mpr rfl, Bool.true_and]
          split
          · next bound =>
              have isTarget : sourceUse "=" operand = Mode.target.use := by
                simp [sourceUse, bound, Mode.use]
              rw [isTarget]
              exact (asPlace_adds _ (fragment_adds .target operand)).bind fun _ =>
                operations_adds true _ rest
          · next free =>
              have isValue : sourceUse "=" operand = Mode.value.use := by
                simp [sourceUse, free, Mode.use]
              rw [isValue]
              exact (asValue_adds (fragment_adds .value operand)).bind fun _ =>
                operations_adds true _ rest
      · next applies =>
          have isValue : assignedUse operator = Mode.value.use := if_neg applies
          have isRead : sourceUse operator operand = .read := by simp_all [sourceUse]
          rw [isValue, isRead]
          refine (asValue_adds (fragment_adds .value left)).bind fun e => ?_
          have later := operations_adds false e (⟨operator, operand⟩ :: rest)
          rwa [writesInOperations] at later
  | .unaryExpression token operand leading => by
      rw [fragment, writes]
      split
      · exact .throw _
      · next operator known =>
          rw [operandUse_of_ofSymbol known]
          split
          · exact (asPlace_adds _ (fragment_adds .target operand)).then fun _ => .pure _
          · exact (asValue_adds (fragment_adds .value operand)).then fun _ => .pure _
  | .functionCall function arguments => by
      rw [fragment, writes]
      exact (asValue_adds (fragment_adds .value function)).bind fun _ =>
        (values_adds arguments).then fun _ => .pure _
  | .methodCall object calls => by
      rw [fragment, writes]
      exact (asValue_adds (fragment_adds .value object)).bind fun e =>
        (methodCalls_adds e calls).then fun _ => .pure _
  | .newExpression className arguments => by
      rw [fragment, writes]
      exact (asValue_adds (fragment_adds .value className)).bind fun _ =>
        (values_adds arguments).then fun _ => .pure _
  | .ternary condition options => by
      rw [fragment, writes]
      exact (asValue_adds (fragment_adds .value condition)).bind fun e =>
        (choices_adds e options).then fun _ => .pure _
  | .arrayLiteral elements => by
      rw [fragment, writes]
      exact (entries_adds elements).then fun _ => .pure _
  | .list elements => by
      rw [fragment, writes]
      refine (require_adds _ _ _).after fun _ => ?_
      exact (places_adds mode elements).then fun _ => .pure _
  | .string _ | .integer _ | .float _ | .boolean _ | .stringLiteral _ | .void => by
      rw [fragment]
      exact .pure _
  | .keyValuePair .. | .program .. | .classStatement .. | .echoStatement ..
  | .expressionStatement .. | .foreachStatement .. | .functionStatement .. | .ifStatement ..
  | .inlineHtmlStatement .. | .returnStatement .. | .methodDefinition ..
  | .propertyDefinition .. => by
      rw [fragment]
      exact .throw _

theorem values_adds : (nodes : List Node) → Adds (writesInAll .read nodes) (values nodes)
  | [] => by
      rw [values]
      exact .pure _
  | n :: rest => by
      rw [values, writesInAll]
      exact (asValue_adds (fragment_adds .value n)).bind fun _ =>
        (values_adds rest).then fun _ => .pure _

theorem places_adds (mode : Mode) :
    (nodes : List Node) → Adds (writesInAll mode.use nodes) (places mode nodes)
  | [] => by
      rw [places]
      exact .pure _
  | n :: rest => by
      rw [places, writesInAll]
      exact (asPlace_adds _ (fragment_adds mode n)).bind fun _ =>
        (places_adds mode rest).then fun _ => .pure _

theorem entries_adds : (nodes : List Node) → Adds (writesInAll .read nodes) (entries nodes)
  | [] => by
      rw [entries]
      exact .pure _
  | n :: rest => by
      cases n with
      | keyValuePair key value =>
          rw [entries, writesInAll, writes, List.append_assoc]
          exact (asValue_adds (fragment_adds .value key)).bind fun _ =>
            (asValue_adds (fragment_adds .value value)).bind fun _ =>
              (entries_adds rest).then fun _ => .pure _
      | _ =>
          rw [entries, writesInAll]
          · exact (asValue_adds (fragment_adds .value _)).bind fun _ =>
              (entries_adds rest).then fun _ => .pure _
          · exact fun _ _ => Node.noConfusion

theorem indexKeys_adds (mode : Mode) :
    (indices : List (Option Node)) → Adds (writesInIndices indices) (indexKeys mode indices)
  | [] => by
      rw [indexKeys]
      exact .pure _
  | none :: rest => by
      rw [indexKeys, writesInIndices]
      refine (require_adds _ _ _).after fun _ => ?_
      exact (indexKeys_adds mode rest).then fun _ => .pure _
  | some key :: rest => by
      rw [indexKeys, writesInIndices]
      exact (asValue_adds (fragment_adds .location key)).bind fun _ =>
        (indexKeys_adds mode rest).then fun _ => .pure _

theorem propertyKeys_adds :
    (properties : List Node) → Adds (writesInAll .read properties) (propertyKeys properties)
  | [] => by
      rw [propertyKeys]
      exact .pure _
  | key :: rest => by
      rw [propertyKeys, writesInAll]
      exact (asValue_adds (fragment_adds .location key)).bind fun _ =>
        (propertyKeys_adds rest).then fun _ => .pure _

theorem operations_adds (assigns : Bool) (e : Expr) :
    (ops : List (Operation Node)) →
      Adds (writesInOperations ops) (operations assigns (.value e) ops)
  | [] => by
      rw [operations]
      exact .pure _
  | ⟨token, operand⟩ :: rest => by
      unfold operations
      rw [writesInOperations]
      split
      · exact .throw _
      · exact (asValue_adds (fragment_adds .value operand)).bind fun _ =>
          operations_adds assigns _ rest
      · exact .throw _

theorem methodCalls_adds (object : Expr) :
    (calls : List (Call Node)) → Adds (writesInCalls calls) (methodCalls object calls)
  | [] => by
      rw [methodCalls]
      exact .pure _
  | ⟨method, arguments⟩ :: rest => by
      rw [methodCalls, writesInCalls, List.append_assoc]
      exact (asValue_adds (fragment_adds .value method)).bind fun _ =>
        (values_adds arguments).bind fun _ => methodCalls_adds _ rest

theorem choices_adds (condition : Expr) :
    (options : List (Choice Node)) → Adds (writesInChoices options) (choices condition options)
  | [] => by
      rw [choices]
      exact .pure _
  | ⟨consequent, alternate⟩ :: rest => by
      rw [choices, writesInChoices, List.append_assoc]
      exact (asValue_adds (fragment_adds .value consequent)).bind fun _ =>
        (asValue_adds (fragment_adds .value alternate)).bind fun _ => choices_adds _ rest
end

/-! Statements -/

theorem valueOf_adds (n : Node) : Adds (n.writes .read) (valueOf n) :=
  asValue_adds (fragment_adds .value n)

theorem targetOf_adds (n : Node) : Adds (n.writes .write) (targetOf n) :=
  asPlace_adds _ (fragment_adds .target n)

theorem optionalValue_adds (n : Option Node) : Adds (writesInOption .read n) (optionalValue n) := by
  cases n with
  | none => exact .pure _
  | some n => exact (valueOf_adds n).then fun _ => .pure _

theorem optionalTarget_adds (n : Option Node) :
    Adds (writesInOption .write n) (optionalTarget n) := by
  cases n with
  | none => exact .pure _
  | some n => exact (targetOf_adds n).then fun _ => .pure _

theorem parameterNames_adds (parameters : List Node) :
    Adds [] (parameters.mapM parameterName) := by
  induction parameters with
  | nil => exact .pure _
  | cons n rest ih =>
      rw [List.mapM_cons]
      have named : Adds [] (parameterName n) := by
        unfold parameterName
        split
        · exact .pure _
        · exact .throw _
      exact named.then fun _ => ih.then fun _ => .pure _

theorem joined_adds {first second : CompileM Block} {names more : List String}
    (hoisted : Adds names first) (others : Adds more second) :
    Adds (names ++ more) (joined first second) :=
  hoisted.bind fun _ => others.then fun _ => .pure _

theorem classMembers_adds (found : Members) (members : List Node) :
    Adds (memberWrites members) (classMembers found members) := by
  induction members generalizing found with
  | nil =>
      rw [classMembers]
      exact .pure _
  | cons n rest ih =>
      cases n with
      | propertyDefinition target value =>
          cases target with
          | «variable» name _ =>
              rw [classMembers, memberWrites]
              exact (optionalValue_adds value).bind fun _ => ih _
          | _ =>
              rw [classMembers]
              · exact .throw _
              · intros; contradiction
      | methodDefinition name parameters statements =>
          cases name with
          | string name =>
              rw [classMembers, memberWrites]
              · refine (parameterNames_adds parameters).after fun ps => ?_
                exact (inBody_adds ps _).after fun _ => ih _
              · intros; contradiction
          | _ =>
              rw [classMembers]
              · exact .throw _
              · intros; contradiction
      | _ =>
          rw [classMembers]
          · exact .throw _
          all_goals intros; contradiction

mutual
theorem statement_adds : (n : Node) → Adds n.statementWrites (statement n)
  | .echoStatement operand | .expressionStatement operand => by
      rw [statement, statementWrites]
      exact (valueOf_adds operand).then fun _ => .pure _
  | .inlineHtmlStatement html => by
      rw [statement]
      exact .pure _
  | .returnStatement operand => by
      rw [statement, statementWrites]
      exact (optionalValue_adds operand).then fun _ => .pure _
  | .ifStatement condition consequent alternate => by
      rw [statement, statementWrites, List.append_assoc]
      refine (valueOf_adds condition).bind fun _ => ?_
      refine (joined_adds (selected_adds true consequent) (selected_adds false consequent)).bind
        fun _ => ?_
      exact (joined_adds (selected_adds true alternate) (selected_adds false alternate)).then
        fun _ => .pure _
  | .foreachStatement array key value statements => by
      rw [statement, statementWrites, List.append_assoc, List.append_assoc]
      refine (valueOf_adds array).bind fun _ => ?_
      refine (optionalTarget_adds key).bind fun _ => ?_
      refine (targetOf_adds value).bind fun _ => ?_
      refine nextLoop_adds.after fun _ => ?_
      exact (joined_adds (selected_adds true statements) (selected_adds false statements)).then
        fun _ => .pure _
  | .functionStatement name parameters statements => by
      rw [statement, statementWrites]
      · refine (parameterNames_adds parameters).after fun ps => ?_
        exact (inBody_adds ps _).then fun _ => .pure _
      all_goals nofun
  | .classStatement className members => by
      rw [statement, statementWrites]
      exact (valueOf_adds className).bind fun _ =>
        (classMembers_adds _ members).then fun _ => .pure _
  | .program .. | .methodDefinition .. | .propertyDefinition .. | .arrayIndex ..
  | .arrayLiteral .. | .boolean .. | .expression .. | .float .. | .functionCall ..
  | .integer .. | .keyValuePair .. | .list .. | .methodCall .. | .newExpression ..
  | .objectProperty .. | .string .. | .stringLiteral .. | .ternary .. | .unaryExpression ..
  | .variable .. | .void => .throw _

theorem selected_adds (declarations : Bool) :
    (nodes : List Node) → Adds (groupWrites declarations nodes) (selected declarations nodes)
  | [] => by
      rw [selected]
      exact .pure _
  | n :: rest => by
      rw [selected, groupWrites]
      split
      · exact (statement_adds n).bind fun _ =>
          (selected_adds declarations rest).then fun _ => .pure _
      · exact selected_adds declarations rest
end

theorem block_adds (statements : List Node) : Adds (blockWrites statements) (block statements) :=
  joined_adds (selected_adds true statements) (selected_adds false statements)

/-! Names by first occurrence -/

theorem nodup_addLocal {locals : List String} (distinct : locals.Nodup) (name : String) :
    (addLocal locals name).Nodup := by
  unfold addLocal
  split
  · exact distinct
  · next absent =>
      have apart : name ∉ locals := by simpa using absent
      exact List.nodup_append.mpr ⟨distinct, List.nodup_singleton name, fun a member b isName same =>
        apart (List.mem_singleton.mp isName ▸ same ▸ member)⟩

theorem nodup_foldl_addLocal (names : List String) {locals : List String}
    (distinct : locals.Nodup) : (names.foldl addLocal locals).Nodup := by
  induction names generalizing locals with
  | nil => exact distinct
  | cons name rest ih => exact ih (nodup_addLocal distinct name)

/-- Names that are added one after the other stand in the order of their first occurrence. -/
theorem foldl_addLocal_nil (names : List String) : names.foldl addLocal [] = names.eraseDups := by
  induction names using List.reverseRecOn with
  | nil => rfl
  | append_singleton names name ih =>
      rw [List.foldl_append, List.foldl_cons, List.foldl_nil, ih, List.eraseDups_append, addLocal]
      by_cases before : name ∈ names
      · have known : names.eraseDups.contains name = true := by simpa using before
        rw [if_pos known]
        simp [List.removeAll, before]
      · have new : ¬ names.eraseDups.contains name = true := by simpa using before
        rw [if_neg new]
        simp [List.removeAll, before, List.eraseDups_cons]

end Compile
end TreeScript
