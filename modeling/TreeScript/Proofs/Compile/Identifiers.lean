import TreeScript.Proofs.Compile.Reading
import TreeScript.Proofs.Compile.Slots
import TreeScript.Proofs.Listing.Blocks

set_option autoImplicit false

/- The names that a listing spells out. Where the variables and parameters of a tree are identifiers,
so are those of the compiled code. A property is listed under its name in quotes, so that it need not
be one. -/
namespace TreeScript

/-! Trees -/

namespace Node

/-- The name of a variable, without its sigil. -/
def variableName : Node → Option String
  | .variable name _ => some (Compile.variableName name)
  | _ => none

/-- The nodes below a node whose variables are listed: all but the name of a property. -/
def listedParts : Node → List Node
  | .propertyDefinition _ default => default.toList
  | n => n.parts

/-- A tree whose variables and parameters, at any depth, are identifiers. -/
inductive WellNamed : Node → Prop
  | node {n : Node} (here : ∀ name ∈ n.variableName, Code.IsIdentifier name)
      (parts : ∀ part ∈ n.listedParts, WellNamed part) : WellNamed n

theorem WellNamed.name {name : String} {reference : Bool}
    (named : WellNamed (.variable name reference)) :
    Code.IsIdentifier (Compile.variableName name) := by
  cases named with
  | node here _ => exact here _ rfl

theorem WellNamed.part {n part : Node} (named : n.WellNamed) (member : part ∈ n.listedParts) :
    part.WellNamed := by
  cases named with
  | node _ parts => exact parts part member

end Node

/-! Compilation -/

namespace Compile

open Code (Expr Place Base Entry Source Operand Stmt Block Function Identifiers Spelled
  SpelledFunction AllSpelled namesInAll namesInEntries namesInPlaces)

namespace Fragment

def names : Fragment → List String
  | .value e => e.names
  | .place p => p.names

theorem names_toExpr (f : Fragment) : f.toExpr.names = f.names := by cases f <;> rfl

theorem names_toBase (f : Fragment) : f.toBase.names = f.names := by cases f <;> rfl

theorem names_ofPlace (mode : Mode) (p : Place) : (ofPlace mode p).names = p.names := by
  cases mode <;> rfl

end Fragment

section rules

theorem asValue_named {m : CompileM Fragment} (grants : Grants (Identifiers ·.names) m) :
    Grants (Identifiers ·.names) (asValue m) :=
  grants.bind fun f named => .pure (by rwa [f.names_toExpr])

theorem asPlace_named {m : CompileM Fragment} (kind : Kind)
    (grants : Grants (Identifiers ·.names) m) : Grants (Identifiers ·.names) (asPlace kind m) := by
  refine grants.bind fun f named => ?_
  cases f with
  | value e => exact .throw _
  | place p => exact .pure named

abbrev KeysNamed (keys : List (Option Expr)) : Prop :=
  ∀ key ∈ keys, ∀ e ∈ key, Identifiers e.names

theorem element_named {base : Base} {key : Option Expr} (named : Identifiers base.names)
    (keyed : ∀ e ∈ key, Identifiers e.names) : Identifiers (Place.element base key).names := by
  cases key with
  | none => exact named
  | some e => exact List.forall_mem_append.mpr ⟨named, keyed e rfl⟩

theorem targetPlace_named {base : Base} {keys : List (Option Expr)} {p : Place}
    (isPlace : targetPlace base keys = some p) (named : Identifiers base.names)
    (keyed : KeysNamed keys) : Identifiers p.names := by
  induction keys generalizing base with
  | nil => simp [targetPlace] at isPlace
  | cons key rest ih =>
      obtain ⟨first, later⟩ := List.forall_mem_cons.mp keyed
      cases rest with
      | nil =>
          obtain rfl : Place.element base key = p := by simpa [targetPlace] using isPlace
          exact element_named named first
      | cons next others => exact ih isPlace (element_named named first) later

theorem readPlace_named {container : Expr} {keys : List (Option Expr)} {p : Place}
    (isPlace : readPlace container keys = some p) (named : Identifiers container.names)
    (keyed : KeysNamed keys) : Identifiers p.names := by
  induction keys generalizing container with
  | nil => simp [readPlace] at isPlace
  | cons key rest ih =>
      obtain ⟨first, later⟩ := List.forall_mem_cons.mp keyed
      have element : Identifiers (Place.element (.value container) key).names :=
        @element_named (.value container) key named first
      cases rest with
      | nil =>
          obtain rfl : Place.element (.value container) key = p := by
            simpa [readPlace] using isPlace
          exact element
      | cons next others => exact ih isPlace element later

theorem access_named {mode : Mode} {base : Fragment} {keys : List (Option Expr)} (kind : Kind)
    (named : Identifiers base.names) (keyed : KeysNamed keys) :
    Grants (Identifiers ·.names) (accessFragment mode kind base keys) := by
  unfold accessFragment
  simp only
  split
  · next p isPlace =>
      refine .pure ?_
      rw [Fragment.names_ofPlace]
      cases mode with
      | target => exact targetPlace_named isPlace (by rwa [base.names_toBase]) keyed
      | value | location => exact readPlace_named isPlace (by rwa [base.names_toExpr]) keyed
  · exact .throw _

mutual
/-- The variables of what an expression is compiled to are identifiers. -/
theorem fragment_named (mode : Mode) :
    (n : Node) → n.WellNamed → Grants (Identifiers ·.names) (fragment mode n)
  | .variable name _, named => by
      rw [fragment]
      refine (declareFor_yields mode _).toGrants.bind fun _ _ => .pure ?_
      rw [Fragment.names_ofPlace]
      exact List.forall_mem_singleton.mpr named.name
  | .arrayIndex array indices _, named => by
      rw [fragment]
      refine (require_yields _ _ _).toGrants.bind fun _ _ => ?_
      refine (fragment_named (baseMode mode) array (named.part List.mem_cons_self)).bind
        fun base inBase => ?_
      refine (indexKeys_named mode indices fun key member =>
        named.part (List.mem_cons_of_mem _ (by simp [member]))).bind fun keys keyed => ?_
      exact access_named .arrayIndex inBase keyed
  | .objectProperty object properties _, named => by
      rw [fragment]
      refine (require_yields _ _ _).toGrants.bind fun _ _ => ?_
      refine (fragment_named (baseMode mode) object (named.part List.mem_cons_self)).bind
        fun base inBase => ?_
      refine (propertyKeys_named properties fun key member =>
        named.part (List.mem_cons_of_mem _ member)).bind fun keys keyed => ?_
      exact access_named .objectProperty inBase keyed
  | .expression left [], named => by
      rw [fragment]
      exact fragment_named mode left (named.part List.mem_cons_self)
  | .expression left (⟨operator, operand⟩ :: rest), named => by
      have first : left.WellNamed := named.part List.mem_cons_self
      have others : ∀ step ∈ (⟨operator, operand⟩ :: rest : List (Operation Node)),
          step.operand.WellNamed := fun step member =>
        named.part (List.mem_cons_of_mem _ (List.mem_map_of_mem member))
      rw [fragment]
      split
      · exact (asPlace_named left.kind (fragment_named .target left first)).bind fun p inPlace =>
          operations_named true (.place p) (⟨operator, operand⟩ :: rest) inPlace others
      · exact (asValue_named (fragment_named .value left first)).bind fun e inValue =>
          operations_named false (.value e) (⟨operator, operand⟩ :: rest) inValue others
  | .unaryExpression token operand leading, named => by
      have inside : operand.WellNamed := named.part List.mem_cons_self
      rw [fragment]
      split
      · exact .throw _
      · split
        · exact (asPlace_named operand.kind (fragment_named .target operand inside)).bind
            fun _ inPlace => .pure inPlace
        · exact (asValue_named (fragment_named .value operand inside)).bind
            fun _ inValue => .pure inValue
  | .functionCall function arguments, named => by
      rw [fragment]
      refine (asValue_named (fragment_named .value function
        (named.part List.mem_cons_self))).bind fun f inFunction => ?_
      refine (values_named arguments fun n member =>
        named.part (List.mem_cons_of_mem _ member)).bind fun es inArguments => .pure ?_
      exact List.forall_mem_append.mpr ⟨inFunction, inArguments⟩
  | .methodCall object calls, named => by
      rw [fragment]
      refine (asValue_named (fragment_named .value object
        (named.part List.mem_cons_self))).bind fun e inObject => ?_
      refine (methodCalls_named e calls inObject fun call member => ?_).bind fun _ inCalls =>
        .pure inCalls
      have inside : ∀ n ∈ call.method :: call.arguments, n.WellNamed := fun n part =>
        named.part (List.mem_cons_of_mem _ (List.mem_flatMap.mpr ⟨call, member, part⟩))
      exact List.forall_mem_cons.mp inside
  | .newExpression className arguments, named => by
      rw [fragment]
      refine (asValue_named (fragment_named .value className
        (named.part List.mem_cons_self))).bind fun c inName => ?_
      refine (values_named arguments fun n member =>
        named.part (List.mem_cons_of_mem _ member)).bind fun es inArguments => .pure ?_
      exact List.forall_mem_append.mpr ⟨inName, inArguments⟩
  | .ternary condition options, named => by
      rw [fragment]
      refine (asValue_named (fragment_named .value condition
        (named.part List.mem_cons_self))).bind fun e inCondition => ?_
      refine (choices_named e options inCondition fun choice member => ?_).bind
        fun _ inChoices => .pure inChoices
      have inside : ∀ n ∈ [choice.consequent, choice.alternate], n.WellNamed := fun n part =>
        named.part (List.mem_cons_of_mem _ (List.mem_flatMap.mpr ⟨choice, member, part⟩))
      exact ⟨inside _ List.mem_cons_self, inside _ (List.mem_cons_of_mem _ List.mem_cons_self)⟩
  | .arrayLiteral elements, named => by
      rw [fragment]
      exact (entries_named elements fun n member => named.part member).bind fun _ inEntries =>
        .pure inEntries
  | .list elements, named => by
      rw [fragment]
      refine (require_yields _ _ _).toGrants.bind fun _ _ => ?_
      exact (places_named mode elements fun n member => named.part member).bind fun _ inPlaces =>
        .pure inPlaces
  | .string text, _ => by
      rw [fragment]
      refine .pure ?_
      unfold bareWord
      split <;> nofun
  | .integer _, _ | .float _, _ | .boolean _, _ | .stringLiteral _, _ | .void, _ => by
      rw [fragment]
      exact .pure nofun
  | .keyValuePair .., _ | .program .., _ | .classStatement .., _ | .echoStatement .., _
  | .expressionStatement .., _ | .foreachStatement .., _ | .functionStatement .., _
  | .ifStatement .., _ | .inlineHtmlStatement .., _ | .returnStatement .., _
  | .methodDefinition .., _ | .propertyDefinition .., _ => by
      rw [fragment]
      exact .throw _

theorem values_named : (nodes : List Node) → (∀ n ∈ nodes, n.WellNamed) →
    Grants (fun es => Identifiers (namesInAll es)) (values nodes)
  | [], _ => by
      rw [values]
      exact .pure nofun
  | n :: rest, named => by
      obtain ⟨first, later⟩ := List.forall_mem_cons.mp named
      rw [values]
      refine (asValue_named (fragment_named .value n first)).bind fun e here => ?_
      refine (values_named rest later).bind fun es others => .pure ?_
      exact List.forall_mem_append.mpr ⟨here, others⟩

theorem places_named (mode : Mode) : (nodes : List Node) → (∀ n ∈ nodes, n.WellNamed) →
    Grants (fun ps => Identifiers (namesInPlaces ps)) (places mode nodes)
  | [], _ => by
      rw [places]
      exact .pure nofun
  | n :: rest, named => by
      obtain ⟨first, later⟩ := List.forall_mem_cons.mp named
      rw [places]
      refine (asPlace_named n.kind (fragment_named mode n first)).bind fun p here => ?_
      refine (places_named mode rest later).bind fun ps others => .pure ?_
      exact List.forall_mem_append.mpr ⟨here, others⟩

theorem entries_named : (nodes : List Node) → (∀ n ∈ nodes, n.WellNamed) →
    Grants (fun es => Identifiers (namesInEntries es)) (entries nodes)
  | [], _ => by
      rw [entries]
      exact .pure nofun
  | n :: rest, named => by
      obtain ⟨first, later⟩ := List.forall_mem_cons.mp named
      cases n with
      | keyValuePair key value =>
          rw [entries]
          refine (asValue_named (fragment_named .value key
            (first.part List.mem_cons_self))).bind fun k inKey => ?_
          refine (asValue_named (fragment_named .value value
            (first.part (List.mem_cons_of_mem _ List.mem_cons_self)))).bind fun e inValue => ?_
          refine (entries_named rest later).bind fun es others => .pure ?_
          exact List.forall_mem_append.mpr ⟨List.forall_mem_append.mpr ⟨inKey, inValue⟩, others⟩
      | _ =>
          rw [entries]
          · refine (asValue_named (fragment_named .value _ first)).bind fun e here => ?_
            refine (entries_named rest later).bind fun es others => .pure ?_
            exact List.forall_mem_append.mpr ⟨here, others⟩
          · exact fun _ _ => Node.noConfusion

theorem indexKeys_named (mode : Mode) : (indices : List (Option Node)) →
    (∀ key, some key ∈ indices → key.WellNamed) → Grants KeysNamed (indexKeys mode indices)
  | [], _ => by
      rw [indexKeys]
      exact .pure nofun
  | none :: rest, named => by
      rw [indexKeys]
      refine (require_yields _ _ _).toGrants.bind fun _ _ => ?_
      refine (indexKeys_named mode rest fun key member =>
        named key (List.mem_cons_of_mem _ member)).bind fun keys others => .pure ?_
      exact List.forall_mem_cons.mpr ⟨nofun, others⟩
  | some key :: rest, named => by
      rw [indexKeys]
      refine (asValue_named (fragment_named .location key
        (named key List.mem_cons_self))).bind fun e inKey => ?_
      refine (indexKeys_named mode rest fun key member =>
        named key (List.mem_cons_of_mem _ member)).bind fun keys others => .pure ?_
      refine List.forall_mem_cons.mpr ⟨?_, others⟩
      intro _ isKey
      cases isKey
      exact inKey

theorem propertyKeys_named : (properties : List Node) → (∀ key ∈ properties, key.WellNamed) →
    Grants KeysNamed (propertyKeys properties)
  | [], _ => by
      rw [propertyKeys]
      exact .pure nofun
  | key :: rest, named => by
      obtain ⟨first, later⟩ := List.forall_mem_cons.mp named
      rw [propertyKeys]
      refine (asValue_named (fragment_named .location key first)).bind fun e inKey => ?_
      refine (propertyKeys_named rest later).bind fun keys others => .pure ?_
      refine List.forall_mem_cons.mpr ⟨?_, others⟩
      intro _ isKey
      cases isKey
      exact inKey

theorem operations_named (assigns : Bool) (f : Fragment) : (ops : List (Operation Node)) →
    Identifiers f.names → (∀ step ∈ ops, step.operand.WellNamed) →
      Grants (Identifiers ·.names) (operations assigns f ops)
  | [], inFirst, _ => by
      rw [operations]
      exact .pure inFirst
  | ⟨token, operand⟩ :: rest, inFirst, named => by
      obtain ⟨first, later⟩ := List.forall_mem_cons.mp named
      unfold operations
      split
      · exact .throw _
      · refine (asValue_named (fragment_named .value operand first)).bind fun right inRight => ?_
        refine operations_named assigns _ rest ?_ later
        rw [← f.names_toExpr] at inFirst
        exact List.forall_mem_append.mpr ⟨inFirst, inRight⟩
      · split
        · exact .throw _
        · split
          · refine (asPlace_named operand.kind (fragment_named .target operand first)).bind
              fun q inSource => ?_
            exact operations_named assigns _ rest
              (List.forall_mem_append.mpr ⟨inFirst, inSource⟩) later
          · refine (asValue_named (fragment_named .value operand first)).bind fun e inSource => ?_
            exact operations_named assigns _ rest
              (List.forall_mem_append.mpr ⟨inFirst, inSource⟩) later

theorem methodCalls_named (object : Expr) : (calls : List (Call Node)) →
    Identifiers object.names →
    (∀ call ∈ calls, call.method.WellNamed ∧ ∀ n ∈ call.arguments, n.WellNamed) →
      Grants (Identifiers ·.names) (methodCalls object calls)
  | [], inObject, _ => by
      rw [methodCalls]
      exact .pure inObject
  | ⟨method, arguments⟩ :: rest, inObject, named => by
      obtain ⟨⟨first, passed⟩, later⟩ := List.forall_mem_cons.mp named
      rw [methodCalls]
      refine (asValue_named (fragment_named .value method first)).bind fun e inMethod => ?_
      refine (values_named arguments passed).bind fun es inArguments => ?_
      refine methodCalls_named _ rest ?_ later
      exact List.forall_mem_append.mpr ⟨inObject, List.forall_mem_append.mpr ⟨inMethod, inArguments⟩⟩

theorem choices_named (condition : Expr) : (options : List (Choice Node)) →
    Identifiers condition.names →
    (∀ choice ∈ options, choice.consequent.WellNamed ∧ choice.alternate.WellNamed) →
      Grants (Identifiers ·.names) (choices condition options)
  | [], inCondition, _ => by
      rw [choices]
      exact .pure inCondition
  | ⟨consequent, alternate⟩ :: rest, inCondition, named => by
      obtain ⟨⟨first, second⟩, later⟩ := List.forall_mem_cons.mp named
      rw [choices]
      refine (asValue_named (fragment_named .value consequent first)).bind fun e inFirst => ?_
      refine (asValue_named (fragment_named .value alternate second)).bind fun f inSecond => ?_
      refine choices_named _ rest ?_ later
      exact List.forall_mem_append.mpr ⟨inCondition, List.forall_mem_append.mpr ⟨inFirst, inSecond⟩⟩
end

/-! Statements -/

theorem valueOf_named {n : Node} (named : n.WellNamed) :
    Grants (Identifiers ·.names) (valueOf n) :=
  asValue_named (fragment_named .value n named)

theorem targetOf_named {n : Node} (named : n.WellNamed) :
    Grants (Identifiers ·.names) (targetOf n) :=
  asPlace_named n.kind (fragment_named .target n named)

theorem optionalValue_named {n : Option Node} (named : ∀ e ∈ n, e.WellNamed) :
    Grants (fun result => ∀ e ∈ result, Identifiers e.names) (optionalValue n) := by
  cases n with
  | none => exact .pure nofun
  | some n =>
      refine (valueOf_named (named n rfl)).bind fun e inValue => .pure ?_
      intro _ isValue
      cases isValue
      exact inValue

theorem optionalTarget_named {n : Option Node} (named : ∀ e ∈ n, e.WellNamed) :
    Grants (fun result => ∀ p ∈ result, Identifiers p.names) (optionalTarget n) := by
  cases n with
  | none => exact .pure nofun
  | some n =>
      refine (targetOf_named (named n rfl)).bind fun p inPlace => .pure ?_
      intro _ isPlace
      cases isPlace
      exact inPlace

theorem parameterName_named {n : Node} (named : n.WellNamed) :
    Grants Code.IsIdentifier (parameterName n) := by
  cases n with
  | «variable» name _ => exact .pure named.name
  | _ => exact .throw _

theorem parameterNames_named : (nodes : List Node) → (∀ n ∈ nodes, n.WellNamed) →
    Grants Identifiers (nodes.mapM parameterName)
  | [], _ => by
      rw [List.mapM_nil]
      exact .pure nofun
  | n :: rest, named => by
      obtain ⟨first, later⟩ := List.forall_mem_cons.mp named
      rw [List.mapM_cons]
      refine (parameterName_named first).bind fun name here => ?_
      refine (parameterNames_named rest later).bind fun names others => .pure ?_
      exact List.forall_mem_cons.mpr ⟨here, others⟩

/-- A function is spelled if its parameters are identifiers and its statements are spelled. -/
theorem assembleFunction_spelled {statements : List Node} {body : Block} {context : Context}
    {parameters : List String} (name : String) (isMethod : Bool) (named : Identifiers parameters)
    (compiled : block statements (.ofParameters parameters) = .ok (body, context))
    (spelled : AllSpelled body) :
    SpelledFunction (assembleFunction name parameters isMethod body context) := by
  refine ⟨named, slotsOf_function (.assembled name parameters isMethod compiled),
    List.forall_mem_singleton.mpr (.scoped fun s member => ?_)⟩
  rcases List.mem_append.mp member with early | inBody
  · rcases List.mem_append.mp early with earlier | bound
    · rcases List.mem_append.mp earlier with declared | received
      · unfold Code.declarations at declared
        split at declared
        · cases declared
        · rw [List.mem_singleton.mp declared]
          exact .defineVariables _
      · split at received
        · rw [List.mem_singleton.mp received]
          exact .bindThis
        · cases received
    · obtain ⟨index, inRange, rfl⟩ := List.mem_mapIdx.mp bound
      exact .bindArgument (named _ (List.getElem_mem _)) index
  · exact spelled s inBody

/-- The members of a class found so far are spelled. -/
structure MembersSpelled (found : Members) : Prop where
  defaults : ∀ entry ∈ found.properties, Identifiers entry.2.names
  keyed : ∀ entry ∈ found.methods, entry.2.name = entry.1
  methods : ∀ entry ∈ found.methods, SpelledFunction entry.2

theorem MembersSpelled.property {found : Members} (spelled : MembersSpelled found) (name : String)
    {default : Expr} (named : Identifiers default.names) :
    MembersSpelled { found with properties := Assoc.set found.properties name default } := by
  refine ⟨fun entry member => ?_, spelled.keyed, spelled.methods⟩
  rcases Assoc.mem_set member with old | isNew
  · exact spelled.defaults entry old
  · rw [isNew]
    exact named

theorem MembersSpelled.method {found : Members} (spelled : MembersSpelled found) {name : String}
    {method : Function Stmt} (keyed : method.name = name) (function : SpelledFunction method) :
    MembersSpelled { found with methods := Assoc.set found.methods name method } := by
  refine ⟨spelled.defaults, fun entry member => ?_, fun entry member => ?_⟩
  · rcases Assoc.eq_of_mem_set member with old | rfl
    · exact spelled.keyed entry old
    · exact keyed
  · rcases Assoc.mem_set member with old | isNew
    · exact spelled.methods entry old
    · rw [isNew]
      exact function

theorem block_spelled_of {statements : List Node}
    (each : ∀ declarations, Grants AllSpelled (selected declarations statements)) :
    Grants AllSpelled (block statements) :=
  (each true).bind fun _ here => (each false).bind fun _ there =>
    .pure (List.forall_mem_append.mpr ⟨here, there⟩)

mutual
/-- A compiled statement is spelled. -/
theorem statement_spelled : (n : Node) → n.WellNamed → Grants Spelled (statement n)
  | .echoStatement e, named => by
      rw [statement]
      exact (valueOf_named (named.part List.mem_cons_self)).bind fun _ inValue =>
        .pure (.echo inValue)
  | .expressionStatement e, named => by
      rw [statement]
      exact (valueOf_named (named.part List.mem_cons_self)).bind fun _ inValue =>
        .pure (.expression inValue)
  | .inlineHtmlStatement html, _ => by
      rw [statement]
      exact .pure (.inlineHtml html)
  | .returnStatement e, named => by
      rw [statement]
      exact (optionalValue_named fun n member => named.part (by simpa [Node.listedParts, Node.parts]
        using member)).bind fun _ inValue => .pure (.ret inValue)
  | .ifStatement condition consequent alternate, named => by
      rw [statement]
      refine (valueOf_named (named.part (by simp [Node.listedParts, Node.parts]))).bind
        fun _ tested => ?_
      refine (block_spelled_of fun group => selected_spelled group consequent fun s member =>
        named.part (by simp [Node.listedParts, Node.parts, member])).bind fun _ first => ?_
      exact (block_spelled_of fun group => selected_spelled group alternate fun s member =>
        named.part (by simp [Node.listedParts, Node.parts, member])).bind fun _ second =>
          .pure (.ifElse tested first second)
  | .foreachStatement array key value statements, named => by
      rw [statement]
      refine (valueOf_named (named.part (by simp [Node.listedParts, Node.parts]))).bind
        fun _ walked => ?_
      refine (optionalTarget_named fun n member =>
        named.part (by simp_all [Node.listedParts, Node.parts])).bind fun _ keyed => ?_
      refine (targetOf_named (named.part (by simp [Node.listedParts, Node.parts]))).bind
        fun _ valued => ?_
      refine (anything_granted _).bind fun _ _ => ?_
      exact (block_spelled_of fun group => selected_spelled group statements fun s member =>
        named.part (by simp [Node.listedParts, Node.parts, member])).bind fun _ body =>
          .pure (.foreach walked keyed valued body)
  | .functionStatement name parameters statements, named => by
      rw [statement]
      refine (parameterNames_named parameters fun n member =>
        named.part (by simp [Node.listedParts, Node.parts, member])).bind fun ps inNames => ?_
      refine (inBody_compiled ps statements).bind fun result compiled => .pure ?_
      have spelled : AllSpelled result.1 := (block_spelled_of fun group =>
        selected_spelled group statements fun s member =>
          named.part (by simp [Node.listedParts, Node.parts, member])).holds compiled
      exact .defineFunction (assembleFunction_spelled name false inNames compiled spelled)
  | .classStatement className members, named => by
      rw [statement]
      refine (valueOf_named (named.part (by simp [Node.listedParts, Node.parts]))).bind
        fun _ inName => ?_
      have none : MembersSpelled ⟨[], []⟩ := ⟨by simp, by simp, by simp⟩
      exact (classMembers_spelled members none fun n member =>
        named.part (by simp [Node.listedParts, Node.parts, member])).bind fun found spelled =>
          .pure (.defineClass inName spelled.defaults spelled.keyed spelled.methods)
  | .program .., _ | .methodDefinition .., _ | .propertyDefinition .., _ | .arrayIndex .., _
  | .arrayLiteral .., _ | .boolean .., _ | .expression .., _ | .float .., _
  | .functionCall .., _ | .integer .., _ | .keyValuePair .., _ | .list .., _
  | .methodCall .., _ | .newExpression .., _ | .objectProperty .., _ | .string .., _
  | .stringLiteral .., _ | .ternary .., _ | .unaryExpression .., _ | .variable .., _
  | .void, _ => .throw _

theorem selected_spelled (declarations : Bool) : (nodes : List Node) → (∀ n ∈ nodes, n.WellNamed) →
    Grants AllSpelled (selected declarations nodes)
  | [], _ => by
      rw [selected]
      exact .pure nofun
  | n :: rest, named => by
      obtain ⟨first, later⟩ := List.forall_mem_cons.mp named
      rw [selected]
      split
      · refine (statement_spelled n first).bind fun _ here => ?_
        exact (selected_spelled declarations rest later).bind fun _ others =>
          .pure (List.forall_mem_cons.mpr ⟨here, others⟩)
      · exact selected_spelled declarations rest later

theorem classMembers_spelled : (members : List Node) → {found : Members} → MembersSpelled found →
    (∀ n ∈ members, n.WellNamed) → Grants MembersSpelled (classMembers found members)
  | [], _, spelled, _ => by
      rw [classMembers]
      exact .pure spelled
  | member :: rest, _, spelled, named => by
      obtain ⟨first, later⟩ := List.forall_mem_cons.mp named
      cases member with
      | propertyDefinition target value =>
          cases target with
          | «variable» name _ =>
              rw [classMembers]
              refine (optionalValue_named fun n member =>
                first.part (by simpa [Node.listedParts] using member)).bind fun default inDefault => ?_
              refine classMembers_spelled rest (spelled.property _ ?_) later
              cases default with
              | none => nofun
              | some e => exact inDefault e rfl
          | _ => exact .throw _
      | methodDefinition name parameters statements =>
          cases name with
          | string name =>
              rw [classMembers]
              refine (parameterNames_named parameters fun n member =>
                first.part (by simp [Node.listedParts, Node.parts, member])).bind fun ps inNames => ?_
              refine (inBody_compiled ps statements).bind fun result compiled => ?_
              have inside : AllSpelled result.1 := (block_spelled_of fun group =>
                selected_spelled group statements fun s member =>
                  first.part (by simp [Node.listedParts, Node.parts, member])).holds compiled
              have function := assembleFunction_spelled name true inNames compiled inside
              exact classMembers_spelled rest (spelled.method rfl function) later
          | _ => exact .throw _
      | _ => exact .throw _
end

theorem block_spelled (statements : List Node) (named : ∀ n ∈ statements, n.WellNamed) :
    Grants AllSpelled (block statements) :=
  block_spelled_of fun group => selected_spelled group statements named

end rules

end Compile
end TreeScript
