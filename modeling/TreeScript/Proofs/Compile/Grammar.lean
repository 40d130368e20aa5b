import TreeScript.Compile.Statement

set_option autoImplicit false

/- Which kinds of node may stand where. The grammar is said without the compiler; whatever the
compiler accepts is legal by it. -/
namespace TreeScript.Compile

open Code (Expr Place Entry Stmt Block)

/-- What a node stands for in the construct around it. -/
inductive Role where
  /-- A whole tree. -/
  | root
  | statement
  /-- Of a class. -/
  | member
  | value
  /-- Of an array literal. -/
  | element
  /-- A place that is written to or bound. -/
  | target
  /-- What a chain of steps towards a target begins with. -/
  | base
  /-- A place that is only read. -/
  | location
  /-- What a step of a chain is taken by. -/
  | key
  deriving DecidableEq

/-- A token between two operands other than the assignment. -/
def IsOperator (token : String) : Prop := ∃ o : BinaryOperator, token = o.symbol

/-- What the first operand of an assignment stands for: what is bound by reference is a place. -/
def sourceRole (operand : Node) : Role := if operand.isReference then .target else .value

/-- The node is legal where it stands for the given role. -/
inductive Legal : Role → Node → Prop
  | program {statements} (each : ∀ s ∈ statements, Legal .statement s) :
      Legal .root (.program statements)
  -- Statements.
  | echo {e} (operand : Legal .value e) : Legal .statement (.echoStatement e)
  | expression {e} (operand : Legal .value e) : Legal .statement (.expressionStatement e)
  | inlineHtml (html) : Legal .statement (.inlineHtmlStatement html)
  | ret {e : Option Node} (operand : ∀ n ∈ e, Legal .value n) :
      Legal .statement (.returnStatement e)
  | ifElse {condition consequent alternate} (tested : Legal .value condition)
      (first : ∀ s ∈ consequent, Legal .statement s)
      (second : ∀ s ∈ alternate, Legal .statement s) :
      Legal .statement (.ifStatement condition consequent alternate)
  | foreach {array value statements} {key : Option Node} (walked : Legal .value array)
      (keyed : ∀ n ∈ key, Legal .target n) (valued : Legal .target value)
      (each : ∀ s ∈ statements, Legal .statement s) :
      Legal .statement (.foreachStatement array key value statements)
  | function {parameters statements} (name) (named : ∀ p ∈ parameters, p.kind = .variable)
      (each : ∀ s ∈ statements, Legal .statement s) :
      Legal .statement (.functionStatement name parameters statements)
  | classDeclaration {name members} (named : Legal .value name)
      (each : ∀ m ∈ members, Legal .member m) :
      Legal .statement (.classStatement name members)
  -- Members of a class.
  | property {default : Option Node} (name reference) (value : ∀ n ∈ default, Legal .value n) :
      Legal .member (.propertyDefinition (.variable name reference) default)
  | method {parameters statements} (name) (named : ∀ p ∈ parameters, p.kind = .variable)
      (each : ∀ s ∈ statements, Legal .statement s) :
      Legal .member (.methodDefinition (.string name) parameters statements)
  -- Values.
  | integer (number) : Legal .value (.integer number)
  | float (number) : Legal .value (.float number)
  | boolean (value) : Legal .value (.boolean value)
  | bareWord (text) : Legal .value (.string text)
  | text (text) : Legal .value (.stringLiteral text)
  | void : Legal .value .void
  | variable (name reference) : Legal .value (.variable name reference)
  | call {function arguments} (called : Legal .value function)
      (passed : ∀ a ∈ arguments, Legal .value a) : Legal .value (.functionCall function arguments)
  | instantiate {name arguments} (named : Legal .value name)
      (passed : ∀ a ∈ arguments, Legal .value a) : Legal .value (.newExpression name arguments)
  | methodCalls {object} {calls : List (Call Node)} (receiver : Legal .value object)
      (called : ∀ c ∈ calls, Legal .value c.method)
      (passed : ∀ c ∈ calls, ∀ a ∈ c.arguments, Legal .value a) :
      Legal .value (.methodCall object calls)
  | conditional {condition} {options : List (Choice Node)} (tested : Legal .value condition)
      (first : ∀ o ∈ options, Legal .value o.consequent)
      (second : ∀ o ∈ options, Legal .value o.alternate) :
      Legal .value (.ternary condition options)
  | array {elements} (each : ∀ e ∈ elements, Legal .element e) :
      Legal .value (.arrayLiteral elements)
  | sign {token e} (known : token ∈ ["+", "-", "~", "!"]) (operand : Legal .value e) :
      Legal .value (.unaryExpression token e true)
  | increment {token e} (leading) (known : token ∈ ["++", "--"]) (operand : Legal .target e) :
      Legal .value (.unaryExpression token e leading)
  | index {array indices} (reference) (steps : indices ≠ []) (start : Legal .value array)
      (filled : none ∉ indices) (keyed : ∀ k, some k ∈ indices → Legal .key k) :
      Legal .value (.arrayIndex array indices reference)
  | access {object properties} (reference) (steps : properties ≠ []) (start : Legal .value object)
      (keyed : ∀ k ∈ properties, Legal .key k) :
      Legal .value (.objectProperty object properties reference)
  | group {e} (inner : Legal .value e) : Legal .value (.expression e [])
  | operators {left operations} (applied : operations ≠ []) (first : Legal .value left)
      (known : ∀ o ∈ operations, IsOperator o.operator)
      (others : ∀ o ∈ operations, Legal .value o.operand) :
      Legal .value (.expression left operations)
  | assign {left operand operations} (assigned : Legal .target left)
      (source : Legal (sourceRole operand) operand)
      (known : ∀ o ∈ operations, IsOperator o.operator)
      (others : ∀ o ∈ operations, Legal .value o.operand) :
      Legal .value (.expression left (⟨"=", operand⟩ :: operations))
  -- Elements of an array literal, the only ones that may be pairs.
  | single {e} (value : Legal .value e) : Legal .element e
  | pair {key value} (keyed : Legal .value key) (valued : Legal .value value) :
      Legal .element (.keyValuePair key value)
  -- Targets. On the way to one an empty step may stand anywhere.
  | targetVoid : Legal .target .void
  | targetVariable (name reference) : Legal .target (.variable name reference)
  | targetList {elements} (each : ∀ e ∈ elements, Legal .target e) : Legal .target (.list elements)
  | targetIndex {array indices} (reference) (steps : indices ≠ []) (start : Legal .base array)
      (keyed : ∀ k, some k ∈ indices → Legal .key k) :
      Legal .target (.arrayIndex array indices reference)
  | targetAccess {object properties} (reference) (steps : properties ≠ [])
      (start : Legal .base object) (keyed : ∀ k ∈ properties, Legal .key k) :
      Legal .target (.objectProperty object properties reference)
  | targetGroup {e} (inner : Legal .target e) : Legal .target (.expression e [])
  | baseTarget {e} (target : Legal .target e) : Legal .base e
  | baseValue {e} (value : Legal .value e) : Legal .base e
  -- Locations. Of the steps to one only the last may be empty.
  | locationVoid : Legal .location .void
  | locationVariable (name reference) : Legal .location (.variable name reference)
  | locationList {elements} (each : ∀ e ∈ elements, Legal .location e) :
      Legal .location (.list elements)
  | locationIndex {array indices} (reference) (steps : indices ≠ []) (start : Legal .value array)
      (filled : none ∉ indices.dropLast) (keyed : ∀ k, some k ∈ indices → Legal .key k) :
      Legal .location (.arrayIndex array indices reference)
  | locationAccess {object properties} (reference) (steps : properties ≠ [])
      (start : Legal .value object) (keyed : ∀ k ∈ properties, Legal .key k) :
      Legal .location (.objectProperty object properties reference)
  | locationGroup {e} (inner : Legal .location e) : Legal .location (.expression e [])
  | keyLocation {e} (location : Legal .location e) : Legal .key e
  | keyValue {e} (value : Legal .value e) : Legal .key e

section rules

variable {α β : Type}

/-- Two parts of the compiler succeed one after the other where each does. -/
theorem bind_eq_ok {m : CompileM α} {next : α → CompileM β} {c c'' : Context} {b : β} :
    (m >>= next) c = .ok (b, c'') ↔ ∃ a c', m c = .ok (a, c') ∧ next a c' = .ok (b, c'') := by
  have steps : (m >>= next) c = (m c >>= fun (a, c') => next a c') := rfl
  rw [steps]
  cases ran : m c with
  | error e => exact ⟨nofun, nofun⟩
  | ok result =>
      obtain ⟨a, c'⟩ := result
      constructor
      · exact fun done => ⟨a, c', rfl, done⟩
      · rintro ⟨_, _, ⟨⟩, done⟩
        exact done

/-- Where a part of the compiler succeeds, its result satisfies `Q`. -/
structure Grants (Q : α → Prop) (m : CompileM α) : Prop where
  holds : ∀ {c a c'}, m c = .ok (a, c') → Q a

/-- Such a part that takes up no loop. -/
structure Yields (Q : α → Prop) (m : CompileM α) : Prop extends Grants Q m where
  loops : ∀ {c a c'}, m c = .ok (a, c') → c'.loops = c.loops

variable {P Q : α → Prop} {Q' : β → Prop} {m : CompileM α}

theorem Grants.pure {a : α} (holds : Q a) : Grants Q (Pure.pure a) := by
  refine ⟨?_⟩
  rintro c _ _ ⟨⟩
  exact holds

theorem Grants.throw (e : CompileError) : Grants Q (throw e) := ⟨nofun⟩

theorem Grants.bind {next : α → CompileM β} (first : Grants Q m)
    (later : ∀ a, Q a → Grants Q' (next a)) : Grants Q' (m >>= next) := by
  refine ⟨fun done => ?_⟩
  obtain ⟨a, c', ran, done⟩ := bind_eq_ok.mp done
  exact (later a (first.holds ran)).holds done

theorem Grants.imp (grants : Grants Q m) (means : ∀ a, Q a → P a) : Grants P m :=
  ⟨fun done => means _ (grants.holds done)⟩

theorem Yields.pure {a : α} (holds : Q a) : Yields Q (Pure.pure a) := by
  refine ⟨.pure holds, ?_⟩
  rintro c _ _ ⟨⟩
  rfl

theorem Yields.throw (e : CompileError) : Yields Q (throw e) := ⟨.throw e, nofun⟩

theorem Yields.bind {next : α → CompileM β} (first : Yields Q m)
    (later : ∀ a, Q a → Yields Q' (next a)) : Yields Q' (m >>= next) := by
  refine ⟨first.toGrants.bind fun a holds => (later a holds).toGrants, fun done => ?_⟩
  obtain ⟨a, c', ran, done⟩ := bind_eq_ok.mp done
  exact ((later a (first.holds ran)).loops done).trans (first.loops ran)

theorem Yields.imp (yields : Yields Q m) (means : ∀ a, Q a → P a) : Yields P m :=
  ⟨yields.toGrants.imp means, yields.loops⟩

theorem require_yields (supported : Bool) (kind : Kind) (position : Position) :
    Yields (fun _ => supported = true) (require supported kind position) := by
  unfold require
  split
  · next held => exact .pure held
  · exact .throw _

end rules

/-- The role a mode asks for. -/
def Mode.role : Mode → Role
  | .value => .value
  | .target => .target
  | .location => .location

/-- What a node has shown itself to be, by what it was wanted for and what it compiles to. -/
def granted (mode : Mode) : Fragment → Role
  | .value _ => .value
  | .place _ => mode.role

theorem granted_ofPlace (mode : Mode) (p : Place) : granted mode (.ofPlace mode p) = mode.role := by
  cases mode <;> rfl

theorem granted_value (f : Fragment) : granted .value f = .value := by cases f <;> rfl

theorem legal_base {f : Fragment} {n : Node} (legal : Legal (granted .target f) n) :
    Legal .base n := by
  cases f with
  | value e => exact .baseValue legal
  | place p => exact .baseTarget legal

theorem legal_key {f : Fragment} {n : Node} (legal : Legal (granted .location f) n) :
    Legal .key n := by
  cases f with
  | value e => exact .keyValue legal
  | place p => exact .keyLocation legal

theorem asValue_yields {n : Node} {m : CompileM Fragment}
    (yields : Yields (fun f => Legal (granted .value f) n) m) :
    Yields (fun _ => Legal .value n) (asValue m) :=
  yields.bind fun f legal => .pure (granted_value f ▸ legal)

theorem asKey_yields {n : Node} {m : CompileM Fragment}
    (yields : Yields (fun f => Legal (granted .location f) n) m) :
    Yields (fun _ => Legal .key n) (asValue m) :=
  yields.bind fun _ legal => .pure (legal_key legal)

theorem asPlace_yields {mode : Mode} {n : Node} {m : CompileM Fragment} (kind : Kind)
    (yields : Yields (fun f => Legal (granted mode f) n) m) :
    Yields (fun _ => Legal mode.role n) (asPlace kind m) := by
  apply yields.bind
  intro f legal
  cases f with
  | value e => exact .throw _
  | place p => exact .pure legal

theorem legal_group {mode : Mode} {f : Fragment} {n : Node} (legal : Legal (granted mode f) n) :
    Legal (granted mode f) (.expression n []) := by
  cases f with
  | value e => exact .group legal
  | place p =>
      cases mode with
      | value => exact .group legal
      | target => exact .targetGroup legal
      | location => exact .locationGroup legal

/-- Where a mode lets empty steps stand in a chain. -/
def EmptySteps (mode : Mode) (indices : List (Option Node)) : Prop :=
  match mode with
  | .value => none ∉ indices
  | .target => True
  | .location => none ∉ indices.dropLast

theorem emptySteps_none_cons {mode : Mode} {rest : List (Option Node)} :
    EmptySteps mode (none :: rest) ↔ allowsEmptyKey mode rest = true ∧ EmptySteps mode rest := by
  cases mode with
  | value => simp [EmptySteps, allowsEmptyKey]
  | target => simp [EmptySteps, allowsEmptyKey]
  | location => cases rest <;> simp [EmptySteps, allowsEmptyKey]

theorem emptySteps_some_cons {mode : Mode} {key : Node} {rest : List (Option Node)} :
    EmptySteps mode (some key :: rest) ↔ EmptySteps mode rest := by
  cases mode with
  | value => simp [EmptySteps]
  | target => rfl
  | location => cases rest <;> simp [EmptySteps]

theorem legal_index {mode : Mode} {base : Fragment} {array : Node} {indices : List (Option Node)}
    (reference : Bool) (steps : indices ≠ []) (start : Legal (granted (baseMode mode) base) array)
    (allowed : EmptySteps mode indices) (keyed : ∀ k, some k ∈ indices → Legal .key k) :
    Legal mode.role (.arrayIndex array indices reference) := by
  cases mode with
  | value => exact .index reference steps (granted_value base ▸ start) allowed keyed
  | target => exact .targetIndex reference steps (legal_base start) keyed
  | location => exact .locationIndex reference steps (granted_value base ▸ start) allowed keyed

theorem legal_access {mode : Mode} {base : Fragment} {object : Node} {properties : List Node}
    (reference : Bool) (steps : properties ≠ [])
    (start : Legal (granted (baseMode mode) base) object)
    (keyed : ∀ k ∈ properties, Legal .key k) :
    Legal mode.role (.objectProperty object properties reference) := by
  cases mode with
  | value => exact .access reference steps (granted_value base ▸ start) keyed
  | target => exact .targetAccess reference steps (legal_base start) keyed
  | location => exact .locationAccess reference steps (granted_value base ▸ start) keyed

theorem declareFor_yields (mode : Mode) (name : String) :
    Yields (fun _ => True) (declareFor mode name) := by
  cases mode with
  | target =>
      refine ⟨⟨fun _ => trivial⟩, ?_⟩
      rintro c _ _ ⟨⟩
      rfl
  | value => exact .pure trivial
  | location => exact .pure trivial

theorem accessFragment_yields (mode : Mode) (kind : Kind) (base : Fragment)
    (keys : List (Option Expr)) :
    Yields (fun f => granted mode f = mode.role) (accessFragment mode kind base keys) := by
  unfold accessFragment
  simp only
  split
  · exact .pure (granted_ofPlace mode _)
  · exact .throw _

theorem isOperator_of_ofSymbol {token : String} {o : BinaryOperator}
    (found : BinaryToken.ofSymbol token = some (.operator o)) : IsOperator token := by
  unfold BinaryToken.ofSymbol at found
  split at found
  · cases found
  · obtain ⟨o', known, -⟩ := Option.map_eq_some_iff.mp found
    have matched := List.find?_some known
    exact ⟨o', (beq_iff_eq.mp matched).symm⟩

theorem ofSymbol_eq_assign {token : String} :
    BinaryToken.ofSymbol token = some .assign ↔ token = "=" := by
  unfold BinaryToken.ofSymbol
  split
  · next is => simpa using is
  · next isNot => simp_all

theorem legal_unary {token : String} {leading : Bool} {operator : UnaryOperator} {e : Node}
    (known : UnaryOperator.ofSymbol token leading = some operator)
    (operand : Legal (if operator.writesBack then .target else .value) e) :
    Legal .value (.unaryExpression token e leading) := by
  unfold UnaryOperator.ofSymbol at known
  split at known <;> cases known
  all_goals first
    | exact .sign (by decide) operand
    | exact .increment _ (by decide) operand

/-- The operations of a chain are all applied to a value: none is the assignment. -/
structure Applied (operations : List (Operation Node)) : Prop where
  known : ∀ o ∈ operations, IsOperator o.operator
  operands : ∀ o ∈ operations, Legal .value o.operand

mutual
/-- An expression that compiles is legal as what it was wanted for. -/
theorem fragment_yields (mode : Mode) :
    (n : Node) → Yields (fun f => Legal (granted mode f) n) (fragment mode n)
  | .variable name reference => by
      rw [fragment]
      apply (declareFor_yields mode _).bind
      intro _ _
      apply Yields.pure
      rw [granted_ofPlace]
      cases mode with
      | value => exact .variable name reference
      | target => exact .targetVariable name reference
      | location => exact .locationVariable name reference
  | .arrayIndex array indices reference => by
      rw [fragment]
      apply (require_yields _ _ _).bind
      intro _ steps
      apply (fragment_yields (baseMode mode) array).bind
      intro base start
      apply (indexKeys_yields mode indices).bind
      rintro keys ⟨allowed, keyed⟩
      apply (accessFragment_yields mode .arrayIndex base keys).imp
      intro f isRole
      rw [isRole]
      exact legal_index reference (by simpa using steps) start allowed keyed
  | .objectProperty object properties reference => by
      rw [fragment]
      apply (require_yields _ _ _).bind
      intro _ steps
      apply (fragment_yields (baseMode mode) object).bind
      intro base start
      apply (propertyKeys_yields properties).bind
      intro keys keyed
      apply (accessFragment_yields mode .objectProperty base keys).imp
      intro f isRole
      rw [isRole]
      exact legal_access reference (by simpa using steps) start keyed
  | .expression left [] => by
      rw [fragment]
      exact (fragment_yields mode left).imp fun _ legal => legal_group legal
  | .expression left (⟨operator, operand⟩ :: rest) => by
      rw [fragment]
      split
      · next isAssign =>
          obtain rfl : operator = "=" := by simpa using isAssign
          apply (asPlace_yields left.kind (fragment_yields .target left)).bind
          intro p assigned
          unfold operations
          simp only [ofSymbol_eq_assign.mpr rfl, Bool.true_and]
          split
          · next bound =>
              apply (asPlace_yields operand.kind (fragment_yields .target operand)).bind
              intro q source
              apply (operations_yields true _ rest).imp
              rintro _ ⟨⟨e, rfl⟩, applied⟩
              refine .assign assigned ?_ applied.known applied.operands
              rw [sourceRole, if_pos bound]
              exact source
          · next free =>
              apply (asValue_yields (fragment_yields .value operand)).bind
              intro e source
              apply (operations_yields true _ rest).imp
              rintro _ ⟨⟨e, rfl⟩, applied⟩
              refine .assign assigned ?_ applied.known applied.operands
              rw [sourceRole, if_neg free]
              exact source
      · apply (asValue_yields (fragment_yields .value left)).bind
        intro e first
        apply (operations_yields false e (⟨operator, operand⟩ :: rest)).imp
        rintro _ ⟨⟨e, rfl⟩, applied⟩
        exact .operators (by simp) first applied.known applied.operands
  | .unaryExpression token operand leading => by
      rw [fragment]
      split
      · exact .throw _
      · next operator known =>
          split
          · next writes =>
              apply (asPlace_yields operand.kind (fragment_yields .target operand)).bind
              intro p legal
              exact .pure (legal_unary known (by rwa [if_pos writes]))
          · next reads =>
              apply (asValue_yields (fragment_yields .value operand)).bind
              intro e legal
              exact .pure (legal_unary known (by rwa [if_neg reads]))
  | .functionCall function arguments => by
      rw [fragment]
      apply (asValue_yields (fragment_yields .value function)).bind
      intro _ called
      apply (values_yields arguments).bind
      intro _ passed
      exact .pure (.call called passed)
  | .methodCall object calls => by
      rw [fragment]
      apply (asValue_yields (fragment_yields .value object)).bind
      intro e receiver
      apply (methodCalls_yields e calls).bind
      rintro _ ⟨called, passed⟩
      exact .pure (.methodCalls receiver called passed)
  | .newExpression className arguments => by
      rw [fragment]
      apply (asValue_yields (fragment_yields .value className)).bind
      intro _ named
      apply (values_yields arguments).bind
      intro _ passed
      exact .pure (.instantiate named passed)
  | .ternary condition options => by
      rw [fragment]
      apply (asValue_yields (fragment_yields .value condition)).bind
      intro e tested
      apply (choices_yields e options).bind
      rintro _ ⟨first, second⟩
      exact .pure (.conditional tested first second)
  | .arrayLiteral elements => by
      rw [fragment]
      apply (entries_yields elements).bind
      intro _ each
      exact .pure (.array each)
  | .list elements => by
      rw [fragment]
      apply (require_yields _ _ _).bind
      intro _ isPlace
      apply (places_yields mode elements).bind
      intro ps each
      apply Yields.pure
      cases mode with
      | value => cases isPlace
      | target => exact .targetList each
      | location => exact .locationList each
  | .integer number => by
      rw [fragment]
      exact .pure (.integer number)
  | .float number => by
      rw [fragment]
      exact .pure (.float number)
  | .boolean value => by
      rw [fragment]
      exact .pure (.boolean value)
  | .string text => by
      rw [fragment]
      exact .pure (.bareWord text)
  | .stringLiteral text => by
      rw [fragment]
      exact .pure (.text text)
  | .void => by
      rw [fragment]
      apply Yields.pure
      cases mode with
      | value => exact .void
      | target => exact .targetVoid
      | location => exact .locationVoid
  | .keyValuePair .. | .program .. | .classStatement .. | .echoStatement ..
  | .expressionStatement .. | .foreachStatement .. | .functionStatement .. | .ifStatement ..
  | .inlineHtmlStatement .. | .returnStatement .. | .methodDefinition ..
  | .propertyDefinition .. => by
      rw [fragment]
      exact .throw _

theorem values_yields :
    (nodes : List Node) → Yields (fun _ => ∀ n ∈ nodes, Legal .value n) (values nodes)
  | [] => by
      rw [values]
      exact .pure (by simp)
  | n :: rest => by
      rw [values]
      apply (asValue_yields (fragment_yields .value n)).bind
      intro _ legal
      apply (values_yields rest).bind
      intro _ each
      exact .pure (List.forall_mem_cons.mpr ⟨legal, each⟩)

theorem places_yields (mode : Mode) :
    (nodes : List Node) → Yields (fun _ => ∀ n ∈ nodes, Legal mode.role n) (places mode nodes)
  | [] => by
      rw [places]
      exact .pure (by simp)
  | n :: rest => by
      rw [places]
      apply (asPlace_yields n.kind (fragment_yields mode n)).bind
      intro _ legal
      apply (places_yields mode rest).bind
      intro _ each
      exact .pure (List.forall_mem_cons.mpr ⟨legal, each⟩)

theorem entries_yields :
    (nodes : List Node) → Yields (fun _ => ∀ n ∈ nodes, Legal .element n) (entries nodes)
  | [] => by
      rw [entries]
      exact .pure (by simp)
  | n :: rest => by
      cases n with
      | keyValuePair key value =>
          rw [entries]
          apply (asValue_yields (fragment_yields .value key)).bind
          intro _ keyed
          apply (asValue_yields (fragment_yields .value value)).bind
          intro _ valued
          apply (entries_yields rest).bind
          intro _ each
          exact .pure (List.forall_mem_cons.mpr ⟨.pair keyed valued, each⟩)
      | _ =>
          rw [entries]
          · apply (asValue_yields (fragment_yields .value _)).bind
            intro _ legal
            apply (entries_yields rest).bind
            intro _ each
            exact .pure (List.forall_mem_cons.mpr ⟨.single legal, each⟩)
          · exact fun _ _ => Node.noConfusion

theorem indexKeys_yields (mode : Mode) :
    (indices : List (Option Node)) →
      Yields (fun _ => EmptySteps mode indices ∧ ∀ k, some k ∈ indices → Legal .key k)
        (indexKeys mode indices)
  | [] => by
      rw [indexKeys]
      refine .pure ⟨?_, by simp⟩
      cases mode <;> simp [EmptySteps]
  | none :: rest => by
      rw [indexKeys]
      apply (require_yields _ _ _).bind
      intro _ allowed
      apply (indexKeys_yields mode rest).bind
      rintro _ ⟨later, keyed⟩
      exact .pure ⟨emptySteps_none_cons.mpr ⟨allowed, later⟩, by simpa using keyed⟩
  | some key :: rest => by
      rw [indexKeys]
      apply (asKey_yields (fragment_yields .location key)).bind
      intro _ legal
      apply (indexKeys_yields mode rest).bind
      rintro _ ⟨later, keyed⟩
      refine .pure ⟨emptySteps_some_cons.mpr later, fun k member => ?_⟩
      cases member with
      | head => exact legal
      | tail _ member => exact keyed k member

theorem propertyKeys_yields :
    (properties : List Node) →
      Yields (fun _ => ∀ k ∈ properties, Legal .key k) (propertyKeys properties)
  | [] => by
      rw [propertyKeys]
      exact .pure (by simp)
  | key :: rest => by
      rw [propertyKeys]
      apply (asKey_yields (fragment_yields .location key)).bind
      intro _ legal
      apply (propertyKeys_yields rest).bind
      intro _ keyed
      exact .pure (List.forall_mem_cons.mpr ⟨legal, keyed⟩)

/-- An assignment has no place left to write to once the result is a value. -/
theorem operations_yields (assigns : Bool) (e : Expr) :
    (rest : List (Operation Node)) →
      Yields (fun f => (∃ e', f = .value e') ∧ Applied rest) (operations assigns (.value e) rest)
  | [] => by
      rw [operations]
      exact .pure ⟨⟨e, rfl⟩, ⟨by simp, by simp⟩⟩
  | ⟨token, operand⟩ :: rest => by
      unfold operations
      split
      · exact .throw _
      · next o found =>
          apply (asValue_yields (fragment_yields .value operand)).bind
          intro right legal
          apply (operations_yields assigns _ rest).imp
          rintro f ⟨isValue, applied⟩
          refine ⟨isValue, ?_, ?_⟩
          · exact List.forall_mem_cons.mpr ⟨isOperator_of_ofSymbol found, applied.known⟩
          · exact List.forall_mem_cons.mpr ⟨legal, applied.operands⟩
      · exact .throw _

theorem methodCalls_yields (object : Expr) :
    (calls : List (Call Node)) →
      Yields (fun _ => (∀ c ∈ calls, Legal .value c.method) ∧
        ∀ c ∈ calls, ∀ a ∈ c.arguments, Legal .value a) (methodCalls object calls)
  | [] => by
      rw [methodCalls]
      exact .pure (by simp)
  | ⟨method, arguments⟩ :: rest => by
      rw [methodCalls]
      apply (asValue_yields (fragment_yields .value method)).bind
      intro _ legal
      apply (values_yields arguments).bind
      intro _ passed
      apply (methodCalls_yields _ rest).imp
      rintro _ ⟨called, later⟩
      exact ⟨List.forall_mem_cons.mpr ⟨legal, called⟩, List.forall_mem_cons.mpr ⟨passed, later⟩⟩

theorem choices_yields (condition : Expr) :
    (options : List (Choice Node)) →
      Yields (fun _ => (∀ o ∈ options, Legal .value o.consequent) ∧
        ∀ o ∈ options, Legal .value o.alternate) (choices condition options)
  | [] => by
      rw [choices]
      exact .pure (by simp)
  | ⟨consequent, alternate⟩ :: rest => by
      rw [choices]
      apply (asValue_yields (fragment_yields .value consequent)).bind
      intro _ first
      apply (asValue_yields (fragment_yields .value alternate)).bind
      intro _ second
      apply (choices_yields _ rest).imp
      rintro _ ⟨firsts, seconds⟩
      exact ⟨List.forall_mem_cons.mpr ⟨first, firsts⟩, List.forall_mem_cons.mpr ⟨second, seconds⟩⟩
end

theorem valueOf_yields (n : Node) : Yields (fun _ => Legal .value n) (valueOf n) :=
  asValue_yields (fragment_yields .value n)

theorem targetOf_yields (n : Node) : Yields (fun _ => Legal .target n) (targetOf n) :=
  asPlace_yields n.kind (fragment_yields .target n)

theorem optionalValue_yields (e : Option Node) :
    Yields (fun _ => ∀ n ∈ e, Legal .value n) (optionalValue e) := by
  cases e with
  | none => exact .pure (by simp)
  | some n => exact (valueOf_yields n).bind fun _ legal => .pure (by simpa using legal)

theorem optionalTarget_yields (e : Option Node) :
    Yields (fun _ => ∀ n ∈ e, Legal .target n) (optionalTarget e) := by
  cases e with
  | none => exact .pure (by simp)
  | some n => exact (targetOf_yields n).bind fun _ legal => .pure (by simpa using legal)

theorem parameterNames_yields (parameters : List Node) :
    Yields (fun _ => ∀ p ∈ parameters, p.kind = .variable) (parameters.mapM parameterName) := by
  induction parameters with
  | nil => exact .pure (by simp)
  | cons n rest ih =>
      rw [List.mapM_cons]
      have named : Yields (fun _ => n.kind = .variable) (parameterName n) := by
        unfold parameterName
        split
        · exact .pure rfl
        · exact .throw _
      apply named.bind
      intro _ isVariable
      apply ih.bind
      intro _ others
      exact .pure (List.forall_mem_cons.mpr ⟨isVariable, others⟩)

theorem nextLoop_grants : Grants (fun _ => True) nextLoop := ⟨fun _ => trivial⟩

theorem inBody_grants {α : Type} {P : Prop} {m : CompileM α} (parameters : List String)
    (grants : Grants (fun _ => P) m) : Grants (fun _ => P) (inBody parameters m) := by
  refine ⟨fun done => ?_⟩
  simp only [inBody] at done
  cases ran : m (Context.ofParameters parameters) with
  | error e =>
      rw [ran] at done
      cases done
  | ok inner => exact grants.holds ran

abbrev AllLegal (statements : List Node) : Prop := ∀ s ∈ statements, Legal .statement s

/-- The declarations and the others together are the whole block. -/
theorem joined_grants {first second : CompileM Block} {statements : List Node}
    (hoisted : Grants (fun _ => ∀ s ∈ statements, s.isDeclaration = true → Legal .statement s)
      first)
    (others : Grants (fun _ => ∀ s ∈ statements, s.isDeclaration = false → Legal .statement s)
      second) :
    Grants (fun _ => AllLegal statements) (joined first second) := by
  refine hoisted.bind fun _ declared => others.bind fun _ rest => .pure fun s member => ?_
  cases isDeclaration : s.isDeclaration with
  | true => exact declared s member isDeclaration
  | false => exact rest s member isDeclaration

mutual
/-- A statement that compiles is legal. -/
theorem statement_grants : (n : Node) → Grants (fun _ => Legal .statement n) (statement n)
  | .echoStatement operand => by
      rw [statement]
      exact (valueOf_yields operand).toGrants.bind fun _ legal => .pure (.echo legal)
  | .expressionStatement operand => by
      rw [statement]
      exact (valueOf_yields operand).toGrants.bind fun _ legal => .pure (.expression legal)
  | .inlineHtmlStatement html => by
      rw [statement]
      exact .pure (.inlineHtml html)
  | .returnStatement operand => by
      rw [statement]
      exact (optionalValue_yields operand).toGrants.bind fun _ legal => .pure (.ret legal)
  | .ifStatement condition consequent alternate => by
      rw [statement]
      apply (valueOf_yields condition).toGrants.bind
      intro _ tested
      apply (joined_grants (selected_grants true consequent)
        (selected_grants false consequent)).bind
      intro _ first
      apply (joined_grants (selected_grants true alternate)
        (selected_grants false alternate)).bind
      intro _ second
      exact .pure (.ifElse tested first second)
  | .foreachStatement array key value statements => by
      rw [statement]
      apply (valueOf_yields array).toGrants.bind
      intro _ walked
      apply (optionalTarget_yields key).toGrants.bind
      intro _ keyed
      apply (targetOf_yields value).toGrants.bind
      intro _ valued
      apply nextLoop_grants.bind
      intro _ _
      apply (joined_grants (selected_grants true statements)
        (selected_grants false statements)).bind
      intro _ each
      exact .pure (.foreach walked keyed valued each)
  | .functionStatement name parameters statements => by
      rw [statement]
      apply (parameterNames_yields parameters).toGrants.bind
      intro ps named
      apply (inBody_grants ps (joined_grants (selected_grants true statements)
        (selected_grants false statements))).bind
      intro _ each
      exact .pure (.function name named each)
  | .classStatement className members => by
      rw [statement]
      apply (valueOf_yields className).toGrants.bind
      intro _ named
      apply (classMembers_grants ⟨[], []⟩ members).bind
      intro _ each
      exact .pure (.classDeclaration named each)
  | .program .. | .methodDefinition .. | .propertyDefinition .. | .arrayIndex ..
  | .arrayLiteral .. | .boolean .. | .expression .. | .float .. | .functionCall ..
  | .integer .. | .keyValuePair .. | .list .. | .methodCall .. | .newExpression ..
  | .objectProperty .. | .string .. | .stringLiteral .. | .ternary .. | .unaryExpression ..
  | .variable .. | .void => .throw _

theorem selected_grants (declarations : Bool) :
    (nodes : List Node) →
      Grants (fun _ => ∀ s ∈ nodes, s.isDeclaration = declarations → Legal .statement s)
        (selected declarations nodes)
  | [] => by
      rw [selected]
      exact .pure (by simp)
  | n :: rest => by
      rw [selected]
      split
      · apply (statement_grants n).bind
        intro _ legal
        apply (selected_grants declarations rest).bind
        intro _ each
        exact .pure (List.forall_mem_cons.mpr ⟨fun _ => legal, each⟩)
      · next other =>
          apply (selected_grants declarations rest).imp
          intro _ each
          exact List.forall_mem_cons.mpr ⟨fun same => absurd same other, each⟩

theorem classMembers_grants (found : Members) :
    (members : List Node) →
      Grants (fun _ => ∀ m ∈ members, Legal .member m) (classMembers found members)
  | [] => by
      rw [classMembers]
      exact .pure (by simp)
  | n :: rest => by
      cases n with
      | propertyDefinition target value =>
          cases target with
          | «variable» name reference =>
              rw [classMembers]
              apply (optionalValue_yields value).toGrants.bind
              intro _ legal
              apply (classMembers_grants _ rest).imp
              intro _ each
              exact List.forall_mem_cons.mpr ⟨.property name reference legal, each⟩
          | _ => exact .throw _
      | methodDefinition name parameters statements =>
          cases name with
          | string name =>
              rw [classMembers]
              apply (parameterNames_yields parameters).toGrants.bind
              intro ps named
              apply (inBody_grants ps (joined_grants (selected_grants true statements)
                (selected_grants false statements))).bind
              intro _ body
              apply (classMembers_grants _ rest).imp
              intro _ each
              exact List.forall_mem_cons.mpr ⟨.method name named body, each⟩
          | _ => exact .throw _
      | _ => exact .throw _
end

/-- A tree that compiles is legal. -/
theorem legal_of_program {root : Node} {p : Code.Program} (compiled : program root = .ok p) :
    Legal .root root := by
  cases root with
  | program statements =>
      simp only [program] at compiled
      cases ran : (block statements).run ⟨[], 0⟩ with
      | error e =>
          rw [ran] at compiled
          cases compiled
      | ok result =>
          have grants : Grants (fun _ => AllLegal statements) (block statements) :=
            joined_grants (selected_grants true statements) (selected_grants false statements)
          exact .program (grants.holds ran)
  | _ => cases compiled

end TreeScript.Compile
