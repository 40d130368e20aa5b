import TreeScript.Proofs.Compile.Blocks

set_option autoImplicit false

/- How declarations and other statements are interleaved within a block makes no difference to the
compiler, at any depth of a tree: it compiles the tree in which every block has its declarations
first. In compiled code, then, the definitions of a block come before its other statements. -/
namespace TreeScript

namespace Node

/-- A block with its declarations first; the declarations keep their order, and so do the other
statements. -/
def hoisted (statements : List Node) : List Node :=
  statements.filter (·.isDeclaration) ++ statements.filter (!·.isDeclaration)

mutual
/-- The tree with every block hoisted, at any depth. -/
def arranged : Node → Node
  | .program statements => .program (hoisted (arrangedAll statements))
  | .classStatement className members => .classStatement className.arranged (arrangedAll members)
  | .echoStatement e => .echoStatement e.arranged
  | .expressionStatement e => .expressionStatement e.arranged
  | .foreachStatement array key value statements =>
      .foreachStatement array.arranged (arrangedOption key) value.arranged
        (hoisted (arrangedAll statements))
  | .functionStatement name parameters statements =>
      .functionStatement name (arrangedAll parameters) (hoisted (arrangedAll statements))
  | .ifStatement condition consequent alternate =>
      .ifStatement condition.arranged (hoisted (arrangedAll consequent))
        (hoisted (arrangedAll alternate))
  | .inlineHtmlStatement html => .inlineHtmlStatement html
  | .returnStatement e => .returnStatement (arrangedOption e)
  | .methodDefinition name parameters statements =>
      .methodDefinition name.arranged (arrangedAll parameters) (hoisted (arrangedAll statements))
  | .propertyDefinition target value => .propertyDefinition target.arranged (arrangedOption value)
  | .arrayIndex array indices reference =>
      .arrayIndex array.arranged (arrangedIndices indices) reference
  | .arrayLiteral elements => .arrayLiteral (arrangedAll elements)
  | .boolean value => .boolean value
  | .expression left right => .expression left.arranged (arrangedOperations right)
  | .float number => .float number
  | .functionCall function arguments => .functionCall function.arranged (arrangedAll arguments)
  | .integer number => .integer number
  | .keyValuePair key value => .keyValuePair key.arranged value.arranged
  | .list elements => .list (arrangedAll elements)
  | .methodCall object calls => .methodCall object.arranged (arrangedCalls calls)
  | .newExpression className arguments =>
      .newExpression className.arranged (arrangedAll arguments)
  | .objectProperty object properties reference =>
      .objectProperty object.arranged (arrangedAll properties) reference
  | .string text => .string text
  | .stringLiteral text => .stringLiteral text
  | .ternary condition options => .ternary condition.arranged (arrangedChoices options)
  | .unaryExpression operator operand leading =>
      .unaryExpression operator operand.arranged leading
  | .variable name reference => .variable name reference
  | .void => .void

def arrangedAll : List Node → List Node
  | [] => []
  | n :: rest => n.arranged :: arrangedAll rest

def arrangedOption : Option Node → Option Node
  | none => none
  | some n => some n.arranged

def arrangedIndices : List (Option Node) → List (Option Node)
  | [] => []
  | none :: rest => none :: arrangedIndices rest
  | some n :: rest => some n.arranged :: arrangedIndices rest

def arrangedOperations : List (Operation Node) → List (Operation Node)
  | [] => []
  | ⟨operator, operand⟩ :: rest => ⟨operator, operand.arranged⟩ :: arrangedOperations rest

def arrangedCalls : List (Call Node) → List (Call Node)
  | [] => []
  | ⟨method, arguments⟩ :: rest => ⟨method.arranged, arrangedAll arguments⟩ :: arrangedCalls rest

def arrangedChoices : List (Choice Node) → List (Choice Node)
  | [] => []
  | ⟨consequent, alternate⟩ :: rest =>
      ⟨consequent.arranged, alternate.arranged⟩ :: arrangedChoices rest
end

/-- Two trees differ at most in how declarations are interleaved with the other statements of
their blocks: in each block, the declarations come in the same order in both, and so do the
others. -/
def SameButInterleaving (t t' : Node) : Prop := t.arranged = t'.arranged

@[simp] theorem kind_arranged (n : Node) : n.arranged.kind = n.kind := by cases n <;> rfl

@[simp] theorem isDeclaration_arranged (n : Node) :
    n.arranged.isDeclaration = n.isDeclaration := by cases n <;> rfl

@[simp] theorem isReference_arranged (n : Node) : n.arranged.isReference = n.isReference := by
  cases n <;> rfl

@[simp] theorem isEmpty_arrangedAll (nodes : List Node) :
    (arrangedAll nodes).isEmpty = nodes.isEmpty := by cases nodes <;> rfl

@[simp] theorem isEmpty_arrangedIndices (indices : List (Option Node)) :
    (arrangedIndices indices).isEmpty = indices.isEmpty := by
  rcases indices with _ | ⟨_ | _, _⟩ <;> rfl

end Node

namespace Compile

open Code (Expr Place Stmt Block BlockOf)
open Node

theorem allowsEmptyKey_arrangedIndices (mode : Mode) (indices : List (Option Node)) :
    allowsEmptyKey mode (arrangedIndices indices) = allowsEmptyKey mode indices := by
  cases mode with
  | value => rfl
  | target => rfl
  | location => exact isEmpty_arrangedIndices indices

theorem entries_cons_of_ne {n : Node} {rest : List Node} (notPair : n.kind ≠ .keyValuePair) :
    entries (n :: rest) =
      asValue (fragment .value n) >>= fun e =>
        entries rest >>= fun es => pure (.value e :: es) := by
  cases n with
  | keyValuePair key value => exact absurd rfl notPair
  | _ =>
      rw [entries]
      exact fun _ _ => Node.noConfusion

mutual
/-- No expression sees how a block is interleaved. -/
theorem fragment_arranged (mode : Mode) : (n : Node) → fragment mode n.arranged = fragment mode n
  | .arrayIndex array indices _ => by
      simp only [arranged, fragment, isEmpty_arrangedIndices,
        fragment_arranged (baseMode mode) array, indexKeys_arranged mode indices]
  | .objectProperty object properties _ => by
      simp only [arranged, fragment, isEmpty_arrangedAll,
        fragment_arranged (baseMode mode) object, propertyKeys_arranged properties]
  | .expression left [] => by
      simp only [arranged, arrangedOperations, fragment, fragment_arranged mode left]
  | .expression left (⟨operator, operand⟩ :: rest) => by
      have same := fun assigns result =>
        operations_arranged assigns result (⟨operator, operand⟩ :: rest)
      simp only [arrangedOperations] at same
      simp only [arranged, arrangedOperations, fragment, kind_arranged,
        fragment_arranged .target left, fragment_arranged .value left, same]
  | .unaryExpression token operand leading => by
      simp only [arranged, fragment, kind_arranged, fragment_arranged .target operand,
        fragment_arranged .value operand]
  | .functionCall function arguments => by
      simp only [arranged, fragment, fragment_arranged .value function, values_arranged arguments]
  | .methodCall object calls => by
      simp only [arranged, fragment, fragment_arranged .value object,
        fun e => methodCalls_arranged e calls]
  | .newExpression className arguments => by
      simp only [arranged, fragment, fragment_arranged .value className, values_arranged arguments]
  | .ternary condition options => by
      simp only [arranged, fragment, fragment_arranged .value condition,
        fun e => choices_arranged e options]
  | .arrayLiteral elements => by simp only [arranged, fragment, entries_arranged elements]
  | .list elements => by simp only [arranged, fragment, places_arranged mode elements]
  | .variable .. | .integer _ | .float _ | .boolean _ | .string _ | .stringLiteral _ | .void
  | .keyValuePair .. | .program .. | .classStatement .. | .echoStatement ..
  | .expressionStatement .. | .foreachStatement .. | .functionStatement .. | .ifStatement ..
  | .inlineHtmlStatement .. | .returnStatement .. | .methodDefinition ..
  | .propertyDefinition .. => by simp only [arranged, fragment]

theorem values_arranged : (nodes : List Node) → values (arrangedAll nodes) = values nodes
  | [] => rfl
  | n :: rest => by
      simp only [arrangedAll, values, fragment_arranged .value n, values_arranged rest]

theorem places_arranged (mode : Mode) :
    (nodes : List Node) → places mode (arrangedAll nodes) = places mode nodes
  | [] => rfl
  | n :: rest => by
      simp only [arrangedAll, places, kind_arranged, fragment_arranged mode n,
        places_arranged mode rest]

theorem entries_arranged : (nodes : List Node) → entries (arrangedAll nodes) = entries nodes
  | [] => rfl
  | n :: rest => by
      by_cases isPair : n.kind = .keyValuePair
      · cases n with
        | keyValuePair key value =>
            simp only [arrangedAll, arranged, entries, fragment_arranged .value key,
              fragment_arranged .value value, entries_arranged rest]
        | _ => cases isPair
      · have isPair' : n.arranged.kind ≠ .keyValuePair := by rwa [kind_arranged]
        rw [arrangedAll, entries_cons_of_ne isPair, entries_cons_of_ne isPair',
          fragment_arranged .value n, entries_arranged rest]

theorem indexKeys_arranged (mode : Mode) :
    (indices : List (Option Node)) →
      indexKeys mode (arrangedIndices indices) = indexKeys mode indices
  | [] => rfl
  | none :: rest => by
      simp only [arrangedIndices, indexKeys, allowsEmptyKey_arrangedIndices,
        indexKeys_arranged mode rest]
  | some key :: rest => by
      simp only [arrangedIndices, indexKeys, fragment_arranged .location key,
        indexKeys_arranged mode rest]

theorem propertyKeys_arranged :
    (properties : List Node) → propertyKeys (arrangedAll properties) = propertyKeys properties
  | [] => rfl
  | key :: rest => by
      simp only [arrangedAll, propertyKeys, fragment_arranged .location key,
        propertyKeys_arranged rest]

theorem operations_arranged (assigns : Bool) (result : Fragment) :
    (ops : List (Operation Node)) →
      operations assigns result (arrangedOperations ops) = operations assigns result ops
  | [] => rfl
  | ⟨token, operand⟩ :: rest => by
      simp only [arrangedOperations, operations, isReference_arranged, kind_arranged,
        fragment_arranged .target operand, fragment_arranged .value operand,
        fun result => operations_arranged assigns result rest]

theorem methodCalls_arranged (object : Expr) :
    (calls : List (Call Node)) → methodCalls object (arrangedCalls calls) = methodCalls object calls
  | [] => rfl
  | ⟨method, arguments⟩ :: rest => by
      simp only [arrangedCalls, methodCalls, fragment_arranged .value method,
        values_arranged arguments, fun object => methodCalls_arranged object rest]

theorem choices_arranged (condition : Expr) :
    (options : List (Choice Node)) →
      choices condition (arrangedChoices options) = choices condition options
  | [] => rfl
  | ⟨consequent, alternate⟩ :: rest => by
      simp only [arrangedChoices, choices, fragment_arranged .value consequent,
        fragment_arranged .value alternate, fun condition => choices_arranged condition rest]
end

theorem valueOf_arranged (n : Node) : valueOf n.arranged = valueOf n := by
  simp only [valueOf, fragment_arranged]

theorem targetOf_arranged (n : Node) : targetOf n.arranged = targetOf n := by
  simp only [targetOf, fragment_arranged, kind_arranged]

theorem optionalValue_arranged (e : Option Node) :
    optionalValue (arrangedOption e) = optionalValue e := by
  cases e with
  | none => rfl
  | some n => simp only [arrangedOption, optionalValue, valueOf_arranged]

theorem optionalTarget_arranged (e : Option Node) :
    optionalTarget (arrangedOption e) = optionalTarget e := by
  cases e with
  | none => rfl
  | some n => simp only [arrangedOption, optionalTarget, targetOf_arranged]

theorem parameterName_arranged (n : Node) : parameterName n.arranged = parameterName n := by
  cases n <;> rfl

theorem parameterNames_arranged (parameters : List Node) :
    (arrangedAll parameters).mapM parameterName = parameters.mapM parameterName := by
  induction parameters with
  | nil => rfl
  | cons n rest ih => simp only [arrangedAll, List.mapM_cons, parameterName_arranged, ih]

/-- Only the statements of its own group bear on what is selected. -/
theorem selected_filter (declarations : Bool) (statements : List Node) :
    selected declarations (statements.filter (·.isDeclaration = declarations)) =
      selected declarations statements := by
  induction statements with
  | nil => rfl
  | cons s rest ih =>
      by_cases here : s.isDeclaration = declarations
      · rw [List.filter_cons_of_pos (by simpa using here), selected, selected, if_pos here,
          if_pos here, ih]
      · rw [List.filter_cons_of_neg (by simpa using here), selected, if_neg here, ih]

theorem filter_hoisted (declarations : Bool) (statements : List Node) :
    (hoisted statements).filter (·.isDeclaration = declarations) =
      statements.filter (·.isDeclaration = declarations) := by
  cases declarations <;> simp [hoisted, List.filter_append, List.filter_filter]

theorem selected_hoisted (declarations : Bool) (statements : List Node) :
    selected declarations (hoisted statements) = selected declarations statements := by
  rw [← selected_filter, filter_hoisted, selected_filter]

mutual
theorem statement_arranged : (n : Node) → statement n.arranged = statement n
  | .echoStatement e | .expressionStatement e => by
      simp only [arranged, statement, valueOf_arranged]
  | .inlineHtmlStatement html => rfl
  | .returnStatement e => by simp only [arranged, statement, optionalValue_arranged]
  | .ifStatement condition consequent alternate => by
      simp only [arranged, statement, valueOf_arranged, selected_hoisted,
        selected_arranged _ consequent, selected_arranged _ alternate]
  | .foreachStatement array key value statements => by
      simp only [arranged, statement, valueOf_arranged, optionalTarget_arranged,
        targetOf_arranged, isReference_arranged, selected_hoisted, selected_arranged _ statements]
  | .functionStatement name parameters statements => by
      simp only [arranged, statement, parameterNames_arranged, selected_hoisted,
        selected_arranged _ statements]
  | .classStatement className members => by
      simp only [arranged, statement, valueOf_arranged,
        fun found => classMembers_arranged found members]
  | .program .. | .methodDefinition .. | .propertyDefinition .. | .arrayIndex ..
  | .arrayLiteral .. | .boolean .. | .expression .. | .float .. | .functionCall ..
  | .integer .. | .keyValuePair .. | .list .. | .methodCall .. | .newExpression ..
  | .objectProperty .. | .string .. | .stringLiteral .. | .ternary .. | .unaryExpression ..
  | .variable .. | .void => by simp only [arranged, statement, kind]

theorem selected_arranged (declarations : Bool) :
    (nodes : List Node) → selected declarations (arrangedAll nodes) = selected declarations nodes
  | [] => rfl
  | n :: rest => by
      simp only [arrangedAll, selected, isDeclaration_arranged, statement_arranged n,
        selected_arranged declarations rest]

theorem classMembers_arranged (found : Members) :
    (members : List Node) → classMembers found (arrangedAll members) = classMembers found members
  | [] => rfl
  | .propertyDefinition target value :: rest => by
      have later := fun found => classMembers_arranged found rest
      cases target <;>
        simp only [arrangedAll, arranged, classMembers, optionalValue_arranged, later, kind]
  | .methodDefinition name parameters statements :: rest => by
      have later := fun found => classMembers_arranged found rest
      cases name <;>
        simp only [arrangedAll, arranged, classMembers, parameterNames_arranged, selected_hoisted,
          selected_arranged _ statements, later, kind]
  | .program .. :: _ | .classStatement .. :: _ | .echoStatement .. :: _
  | .expressionStatement .. :: _ | .foreachStatement .. :: _ | .functionStatement .. :: _
  | .ifStatement .. :: _ | .inlineHtmlStatement .. :: _ | .returnStatement .. :: _
  | .arrayIndex .. :: _ | .arrayLiteral .. :: _ | .boolean .. :: _ | .expression .. :: _
  | .float .. :: _ | .functionCall .. :: _ | .integer .. :: _ | .keyValuePair .. :: _
  | .list .. :: _ | .methodCall .. :: _ | .newExpression .. :: _ | .objectProperty .. :: _
  | .string .. :: _ | .stringLiteral .. :: _ | .ternary .. :: _ | .unaryExpression .. :: _
  | .variable .. :: _ | .void :: _ => by simp only [arrangedAll, arranged, classMembers, kind]
end

/-- A tree compiles as it does with all its blocks hoisted, or fails with the same error. -/
theorem program_arranged (t : Node) : program t.arranged = program t := by
  cases t with
  | program statements =>
      simp only [arranged, program, block, selected_hoisted, selected_arranged _ statements]
  | _ => simp only [arranged, program, kind]

/-- No statement that is neither a definition nor readies the body comes before a definition. -/
def DefinitionsFirst (b : Block) : Prop :=
  b.Pairwise fun earlier later => later.isDefinition = true →
    earlier.isDefinition = true ∨ earlier.isPrologue = true

theorem CompiledBlock.definitionsFirst {b : Block} (compiled : CompiledBlock b) :
    DefinitionsFirst b := by
  obtain ⟨definitions, others, rfl, first, second⟩ := compiled.split
  refine List.pairwise_append.mpr ⟨?_, ?_, ?_⟩
  · exact List.pairwise_of_forall_mem_list fun s member _ _ _ => .inl (first s member).2
  · refine List.pairwise_of_forall_mem_list fun _ _ s member isDefinition => ?_
    rw [(second s member).2] at isDefinition
    cases isDefinition
  · intro s member _ _ _
    exact .inl (first s member).2

theorem Origin.definitionsFirst {b : Block} (origin : Origin b) : DefinitionsFirst b := by
  cases origin with
  | compiled compiled => exact compiled.definitionsFirst
  | readied readied =>
      obtain ⟨prologue, statements, rfl, readies, compiled⟩ := readied
      refine List.pairwise_append.mpr ⟨?_, compiled.definitionsFirst, ?_⟩
      · exact List.pairwise_of_forall_mem_list fun s member _ _ _ => .inr (readies s member)
      · exact fun s member _ _ _ => .inr (readies s member)
  | function compiled isBody =>
      obtain ⟨_, _, _, _, _, isScope, -⟩ := compiled.body
      rw [isBody, isScope]
      exact List.pairwise_singleton _ _

/-- Two trees that differ only in how declarations are interleaved with other statements compile
to the same program or fail with the same error; and in every block of a compiled program the
definitions come before what is compiled from other statements. -/
theorem program_eq_of_sameButInterleaving {t t' : Node} (same : SameButInterleaving t t') :
    program t = program t' ∧
      ∀ p, program t = .ok p → ∀ b, BlockOf p.body b → DefinitionsFirst b := by
  constructor
  · rw [← program_arranged t, same, program_arranged t']
  · intro p compiled b inside
    obtain ⟨statements, -, ran⟩ := program_compiled compiled
    exact (origin_of_blockOf ⟨statements, _, _, ran⟩ inside).definitionsFirst

/-- Two programs with a declaration before and after the statement beside it, in the program and
in a branch. -/
theorem program_eq_of_sameButInterleaving_nested :
    let f : Node := .functionStatement "f" [] [.echoStatement (.variable "x" false),
      .classStatement (.string "C") []]
    let f' : Node := .functionStatement "f" [] [.classStatement (.string "C") [],
      .echoStatement (.variable "x" false)]
    let loop (statements : List Node) : Node :=
      .foreachStatement (.variable "a" false) none (.variable "v" false) statements
    let t : Node := .program [loop [.inlineHtmlStatement "-", f], f]
    let t' : Node := .program [f', loop [f', .inlineHtmlStatement "-"]]
    SameButInterleaving t t' ∧ t ≠ t' ∧ program t = program t' ∧ (∃ p, program t = .ok p) ∧
      ∀ p, program t = .ok p → ∀ b, BlockOf p.body b → DefinitionsFirst b := by
  intro f f' loop t t'
  have same : SameButInterleaving t t' := rfl
  obtain ⟨equal, first⟩ := program_eq_of_sameButInterleaving same
  exact ⟨same, by simp [t, t', f', loop], equal, ⟨_, rfl⟩, first⟩

end Compile
end TreeScript
