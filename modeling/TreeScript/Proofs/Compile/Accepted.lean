import TreeScript.Proofs.Compile.Grammar

set_option autoImplicit false

/- The compiler accepts every legal tree, whatever the body at hand holds already, and with what
`Grammar` says it accepts nothing else. -/
namespace TreeScript.Compile

open Code (Expr Place Entry Stmt Block)

/-- A part of the compiler succeeds in every body, with a result that satisfies `Q`. -/
structure Gives {α : Type} (Q : α → Prop) (m : CompileM α) : Prop where
  succeeds : ∀ c, ∃ a c', m c = .ok (a, c') ∧ Q a

abbrev Succeeds {α : Type} (m : CompileM α) : Prop := Gives (fun _ => True) m

section rules

variable {α β : Type} {P Q : α → Prop} {Q' : β → Prop} {m : CompileM α}

theorem Gives.pure {a : α} (holds : Q a) : Gives Q (Pure.pure a) :=
  ⟨fun c => ⟨a, c, rfl, holds⟩⟩

theorem Gives.bind {next : α → CompileM β} (first : Gives Q m)
    (later : ∀ a, Q a → Gives Q' (next a)) : Gives Q' (m >>= next) := by
  refine ⟨fun c => ?_⟩
  obtain ⟨a, c', ran, holds⟩ := first.succeeds c
  obtain ⟨b, c'', ran', holds'⟩ := (later a holds).succeeds c'
  exact ⟨b, c'', bind_eq_ok.mpr ⟨a, c', ran, ran'⟩, holds'⟩

theorem Gives.imp (gives : Gives Q m) (means : ∀ a, Q a → P a) : Gives P m := by
  refine ⟨fun c => ?_⟩
  obtain ⟨a, c', ran, holds⟩ := gives.succeeds c
  exact ⟨a, c', ran, means a holds⟩

theorem Gives.plain (gives : Gives Q m) : Succeeds m := gives.imp fun _ _ => trivial

theorem require_gives {supported : Bool} (held : supported = true) (kind : Kind)
    (position : Position) : Succeeds (require supported kind position) := by
  rw [require, if_pos held]
  exact .pure trivial

theorem declareFor_gives (mode : Mode) (name : String) : Succeeds (declareFor mode name) := by
  cases mode with
  | target => exact ⟨fun c => ⟨(), _, rfl, trivial⟩⟩
  | value => exact .pure trivial
  | location => exact .pure trivial

theorem nextLoop_gives : Succeeds nextLoop := ⟨fun c => ⟨c.loops, _, rfl, trivial⟩⟩

theorem inBody_gives (parameters : List String) (gives : Succeeds m) :
    Succeeds (inBody parameters m) := by
  refine ⟨fun c => ?_⟩
  obtain ⟨a, inner, ran, -⟩ := gives.succeeds (Context.ofParameters parameters)
  refine ⟨(a, inner), c, ?_, trivial⟩
  simp only [inBody, ran]
  rfl

end rules

/-- A fragment that names a place. -/
def Fragment.IsPlace (f : Fragment) : Prop := ∃ p, f = .place p

theorem asValue_gives {m : CompileM Fragment} (gives : Succeeds m) : Succeeds (asValue m) :=
  gives.bind fun _ _ => .pure trivial

theorem asPlace_gives {m : CompileM Fragment} (kind : Kind) (gives : Gives Fragment.IsPlace m) :
    Succeeds (asPlace kind m) := by
  apply gives.bind
  rintro _ ⟨p, rfl⟩
  exact .pure trivial

/-- What the compiler makes of a node in each role. A node of a list is taken with those after
it. -/
def Accepted : Role → Node → Prop
  | .root, n => ∃ p, program n = .ok p
  | .statement, n => Succeeds (statement n)
  | .member, n => ∀ rest, (∀ found, Succeeds (classMembers found rest)) →
      ∀ found, Succeeds (classMembers found (n :: rest))
  | .value, n => ∀ mode, Succeeds (fragment mode n)
  | .element, n => ∀ rest, Succeeds (entries rest) → Succeeds (entries (n :: rest))
  | .target, n => Gives Fragment.IsPlace (fragment .target n)
  | .base, n => Succeeds (fragment .target n)
  | .location, n => Gives Fragment.IsPlace (fragment .location n)
  | .key, n => Succeeds (fragment .location n)

section chains

theorem values_gives {nodes : List Node} (each : ∀ n ∈ nodes, Accepted .value n) :
    Succeeds (values nodes) := by
  induction nodes with
  | nil => exact .pure trivial
  | cons n rest ih =>
      obtain ⟨first, others⟩ := List.forall_mem_cons.mp each
      exact (asValue_gives (first .value)).bind fun _ _ => (ih others).bind fun _ _ => .pure trivial

theorem places_gives {mode : Mode} {nodes : List Node}
    (each : ∀ n ∈ nodes, Gives Fragment.IsPlace (fragment mode n)) :
    Succeeds (places mode nodes) := by
  induction nodes with
  | nil => exact .pure trivial
  | cons n rest ih =>
      obtain ⟨first, others⟩ := List.forall_mem_cons.mp each
      exact (asPlace_gives n.kind first).bind fun _ _ => (ih others).bind fun _ _ => .pure trivial

theorem entries_gives {nodes : List Node} (each : ∀ n ∈ nodes, Accepted .element n) :
    Succeeds (entries nodes) := by
  induction nodes with
  | nil => exact .pure trivial
  | cons n rest ih =>
      obtain ⟨first, others⟩ := List.forall_mem_cons.mp each
      exact first rest (ih others)

theorem emptySteps_of_filled {indices : List (Option Node)} (filled : none ∉ indices)
    (mode : Mode) : EmptySteps mode indices := by
  cases mode with
  | value => exact filled
  | target => trivial
  | location => exact fun member => filled (List.dropLast_subset indices member)

theorem indexKeys_gives {mode : Mode} {indices : List (Option Node)}
    (allowed : EmptySteps mode indices) (keyed : ∀ k, some k ∈ indices → Accepted .key k) :
    Gives (fun keys => keys.length = indices.length) (indexKeys mode indices) := by
  induction indices with
  | nil => exact .pure rfl
  | cons index rest ih =>
      have later : ∀ k, some k ∈ rest → Accepted .key k := fun k member => keyed k (.tail _ member)
      cases index with
      | none =>
          obtain ⟨first, others⟩ := emptySteps_none_cons.mp allowed
          apply (require_gives first _ _).bind
          intro _ _
          apply (ih others later).bind
          intro keys same
          exact .pure (by simp [same])
      | some key =>
          have others := emptySteps_some_cons.mp allowed
          have first : Succeeds (fragment .location key) := keyed key (.head _)
          apply (asValue_gives first).bind
          intro _ _
          apply (ih others later).bind
          intro keys same
          exact .pure (by simp [same])

theorem propertyKeys_gives {properties : List Node} (keyed : ∀ k ∈ properties, Accepted .key k) :
    Gives (fun keys => keys.length = properties.length) (propertyKeys properties) := by
  induction properties with
  | nil => exact .pure rfl
  | cons key rest ih =>
      obtain ⟨first, others⟩ := List.forall_mem_cons.mp keyed
      apply (asValue_gives first).bind
      intro _ _
      apply (ih others).bind
      intro keys same
      exact .pure (by simp [same])

theorem targetPlace_isSome (base : Code.Base) {keys : List (Option Expr)} (some_ : keys ≠ []) :
    (targetPlace base keys).isSome := by
  fun_induction targetPlace base keys with
  | case1 => exact absurd rfl some_
  | case2 => rfl
  | case3 base key rest more ih => exact ih more

theorem readPlace_isSome (container : Expr) {keys : List (Option Expr)} (some_ : keys ≠ []) :
    (readPlace container keys).isSome := by
  fun_induction readPlace container keys with
  | case1 => exact absurd rfl some_
  | case2 => rfl
  | case3 container key rest more ih => exact ih more

/-- An access is a place wherever it is wanted as one. -/
theorem accessFragment_gives (mode : Mode) (kind : Kind) (base : Fragment)
    {keys : List (Option Expr)} (some_ : keys ≠ []) :
    Gives (fun f => mode ≠ .value → f.IsPlace) (accessFragment mode kind base keys) := by
  unfold accessFragment
  cases mode with
  | value =>
      obtain ⟨p, found⟩ := Option.isSome_iff_exists.mp (readPlace_isSome base.toExpr some_)
      simp only [found]
      exact .pure fun isPlace => absurd rfl isPlace
  | target =>
      obtain ⟨p, found⟩ := Option.isSome_iff_exists.mp (targetPlace_isSome base.toBase some_)
      simp only [found]
      exact .pure fun _ => ⟨p, rfl⟩
  | location =>
      obtain ⟨p, found⟩ := Option.isSome_iff_exists.mp (readPlace_isSome base.toExpr some_)
      simp only [found]
      exact .pure fun _ => ⟨p, rfl⟩

theorem arrayIndex_gives (mode : Mode) {array : Node} {indices : List (Option Node)}
    (reference : Bool) (steps : indices ≠ []) (start : Succeeds (fragment (baseMode mode) array))
    (allowed : EmptySteps mode indices) (keyed : ∀ k, some k ∈ indices → Accepted .key k) :
    Gives (fun f => mode ≠ .value → f.IsPlace)
      (fragment mode (.arrayIndex array indices reference)) := by
  rw [fragment]
  apply (require_gives (by simpa using steps) _ _).bind
  intro _ _
  apply start.bind
  intro base _
  apply (indexKeys_gives allowed keyed).bind
  intro keys same
  apply accessFragment_gives
  exact fun none_ => steps (List.length_eq_zero_iff.mp (by simpa [none_] using same.symm))

theorem objectProperty_gives (mode : Mode) {object : Node} {properties : List Node}
    (reference : Bool) (steps : properties ≠ [])
    (start : Succeeds (fragment (baseMode mode) object))
    (keyed : ∀ k ∈ properties, Accepted .key k) :
    Gives (fun f => mode ≠ .value → f.IsPlace)
      (fragment mode (.objectProperty object properties reference)) := by
  rw [fragment]
  apply (require_gives (by simpa using steps) _ _).bind
  intro _ _
  apply start.bind
  intro base _
  apply (propertyKeys_gives keyed).bind
  intro keys same
  apply accessFragment_gives
  exact fun none_ => steps (List.length_eq_zero_iff.mp (by simpa [none_] using same.symm))

theorem ofSymbol_of_isOperator {token : String} (known : IsOperator token) :
    ∃ o, BinaryToken.ofSymbol token = some (.operator o) := by
  obtain ⟨o, rfl⟩ := known
  refine ⟨o, ?_⟩
  have other : (o.symbol == "=") = false := by cases o <;> decide
  simp [BinaryToken.ofSymbol, other, BinaryOperator.ofSymbol_symbol]

theorem operations_gives (assigns : Bool) {ops : List (Operation Node)}
    (known : ∀ o ∈ ops, IsOperator o.operator) (each : ∀ o ∈ ops, Accepted .value o.operand)
    (e : Expr) : Succeeds (operations assigns (.value e) ops) := by
  induction ops generalizing e with
  | nil =>
      rw [operations]
      exact .pure trivial
  | cons op rest ih =>
      obtain ⟨first, others⟩ := List.forall_mem_cons.mp each
      obtain ⟨isOperator, areOperators⟩ := List.forall_mem_cons.mp known
      obtain ⟨o, found⟩ := ofSymbol_of_isOperator isOperator
      unfold operations
      simp only [found]
      exact (asValue_gives (first .value)).bind fun _ _ => ih areOperators others _

theorem methodCalls_gives {calls : List (Call Node)}
    (called : ∀ c ∈ calls, Accepted .value c.method)
    (passed : ∀ c ∈ calls, ∀ a ∈ c.arguments, Accepted .value a) (object : Expr) :
    Succeeds (methodCalls object calls) := by
  induction calls generalizing object with
  | nil => exact .pure trivial
  | cons call rest ih =>
      obtain ⟨first, others⟩ := List.forall_mem_cons.mp called
      obtain ⟨here, later⟩ := List.forall_mem_cons.mp passed
      exact (asValue_gives (first .value)).bind fun _ _ =>
        (values_gives here).bind fun _ _ => ih others later _

theorem choices_gives {options : List (Choice Node)}
    (first : ∀ o ∈ options, Accepted .value o.consequent)
    (second : ∀ o ∈ options, Accepted .value o.alternate) (condition : Expr) :
    Succeeds (choices condition options) := by
  induction options generalizing condition with
  | nil => exact .pure trivial
  | cons option rest ih =>
      obtain ⟨here, later⟩ := List.forall_mem_cons.mp first
      obtain ⟨here', later'⟩ := List.forall_mem_cons.mp second
      exact (asValue_gives (here .value)).bind fun _ _ =>
        (asValue_gives (here' .value)).bind fun _ _ => ih later later' _

theorem ofSymbol_sign {token : String} (known : token ∈ ["+", "-", "~", "!"]) :
    ∃ o, UnaryOperator.ofSymbol token true = some o ∧ o.writesBack = false := by
  simp only [List.mem_cons, List.not_mem_nil, or_false] at known
  rcases known with rfl | rfl | rfl | rfl <;> exact ⟨_, rfl, rfl⟩

theorem ofSymbol_increment {token : String} (known : token ∈ ["++", "--"]) (leading : Bool) :
    ∃ o, UnaryOperator.ofSymbol token leading = some o ∧ o.writesBack = true := by
  simp only [List.mem_cons, List.not_mem_nil, or_false] at known
  rcases known with rfl | rfl <;> cases leading <;> exact ⟨_, rfl, rfl⟩

theorem unary_gives {token : String} {leading : Bool} {operator : UnaryOperator} {e : Node}
    (known : UnaryOperator.ofSymbol token leading = some operator)
    (operand : Accepted (if operator.writesBack then .target else .value) e) (mode : Mode) :
    Succeeds (fragment mode (.unaryExpression token e leading)) := by
  rw [fragment]
  simp only [known]
  split
  · next writes =>
      rw [if_pos writes] at operand
      exact (asPlace_gives e.kind operand).bind fun _ _ => .pure trivial
  · next reads =>
      rw [if_neg reads] at operand
      exact (asValue_gives (operand .value)).bind fun _ _ => .pure trivial

/-- The first operation of an assignment writes to the place on its left; the others go on from
the value that it gives. -/
theorem assign_gives {left operand : Node} {ops : List (Operation Node)}
    (assigned : Accepted .target left) (source : Accepted (sourceRole operand) operand)
    (known : ∀ o ∈ ops, IsOperator o.operator) (others : ∀ o ∈ ops, Accepted .value o.operand)
    (mode : Mode) : Succeeds (fragment mode (.expression left (⟨"=", operand⟩ :: ops))) := by
  rw [fragment, if_pos (by rfl)]
  apply (asPlace_gives left.kind assigned).bind
  intro p _
  unfold operations
  simp only [ofSymbol_eq_assign.mpr rfl, Bool.true_and]
  split
  · next bound =>
      rw [sourceRole, if_pos bound] at source
      exact (asPlace_gives operand.kind source).bind fun _ _ => operations_gives true known others _
  · next free =>
      rw [sourceRole, if_neg free] at source
      exact (asValue_gives (source .value)).bind fun _ _ => operations_gives true known others _

theorem operators_gives {left : Node} {ops : List (Operation Node)} (applied : ops ≠ [])
    (first : Accepted .value left) (known : ∀ o ∈ ops, IsOperator o.operator)
    (others : ∀ o ∈ ops, Accepted .value o.operand) (mode : Mode) :
    Succeeds (fragment mode (.expression left ops)) := by
  cases ops with
  | nil => exact absurd rfl applied
  | cons op rest =>
      obtain ⟨o, isSymbol⟩ := known op (.head _)
      have other : (op.operator == "=") = false := by
        rw [isSymbol]
        cases o <;> decide
      rw [fragment, other, if_neg (by decide)]
      exact (asValue_gives (first .value)).bind fun _ _ => operations_gives false known others _

end chains

section statements

theorem optionalValue_gives {e : Option Node} (each : ∀ n ∈ e, Accepted .value n) :
    Succeeds (optionalValue e) := by
  cases e with
  | none => exact .pure trivial
  | some n => exact (asValue_gives (each n rfl .value)).bind fun _ _ => .pure trivial

theorem optionalTarget_gives {e : Option Node} (each : ∀ n ∈ e, Accepted .target n) :
    Succeeds (optionalTarget e) := by
  cases e with
  | none => exact .pure trivial
  | some n => exact (asPlace_gives n.kind (each n rfl)).bind fun _ _ => .pure trivial

theorem parameterNames_gives {parameters : List Node}
    (named : ∀ p ∈ parameters, p.kind = .variable) :
    Succeeds (parameters.mapM parameterName) := by
  induction parameters with
  | nil => exact .pure trivial
  | cons p rest ih =>
      obtain ⟨first, others⟩ := List.forall_mem_cons.mp named
      rw [List.mapM_cons]
      have isName : Succeeds (parameterName p) := by
        cases p with
        | «variable» name reference => exact .pure trivial
        | _ => cases first
      exact isName.bind fun _ _ => (ih others).bind fun _ _ => .pure trivial

theorem selected_gives {nodes : List Node} (each : ∀ s ∈ nodes, Accepted .statement s)
    (declarations : Bool) : Succeeds (selected declarations nodes) := by
  induction nodes with
  | nil => exact .pure trivial
  | cons n rest ih =>
      obtain ⟨first, others⟩ := List.forall_mem_cons.mp each
      rw [selected]
      split
      · exact Gives.bind first fun _ _ => (ih others).bind fun _ _ => .pure trivial
      · exact ih others

theorem block_gives {nodes : List Node} (each : ∀ s ∈ nodes, Accepted .statement s) :
    Succeeds (block nodes) :=
  (selected_gives each true).bind fun _ _ =>
    (selected_gives each false).bind fun _ _ => .pure trivial

theorem classMembers_gives {members : List Node} (each : ∀ m ∈ members, Accepted .member m)
    (found : Members) : Succeeds (classMembers found members) := by
  induction members generalizing found with
  | nil => exact .pure trivial
  | cons m rest ih =>
      obtain ⟨first, others⟩ := List.forall_mem_cons.mp each
      exact first rest (ih others) found

end statements

/-- A legal node is accepted in its role. -/
theorem Legal.accepted {role : Role} {n : Node} (legal : Legal role n) : Accepted role n := by
  induction legal with
  | program _ each =>
      obtain ⟨body, c, ran, -⟩ := (block_gives each).succeeds ⟨[], 0⟩
      refine ⟨⟨body, c.locals, c.loops⟩, ?_⟩
      rw [Compile.program, StateT.run, ran]
      rfl
  | echo _ operand =>
      simp only [Accepted, statement]
      exact (asValue_gives (operand .value)).bind fun _ _ => .pure trivial
  | expression _ operand =>
      simp only [Accepted, statement]
      exact (asValue_gives (operand .value)).bind fun _ _ => .pure trivial
  | inlineHtml html =>
      simp only [Accepted, statement]
      exact .pure trivial
  | ret _ operand =>
      simp only [Accepted, statement]
      exact (optionalValue_gives operand).bind fun _ _ => .pure trivial
  | ifElse _ _ _ tested first second =>
      simp only [Accepted, statement]
      exact (asValue_gives (tested .value)).bind fun _ _ =>
        (block_gives first).bind fun _ _ => (block_gives second).bind fun _ _ => .pure trivial
  | «foreach» _ _ _ _ walked keyed valued each =>
      simp only [Accepted, statement]
      exact (asValue_gives (walked .value)).bind fun _ _ =>
        (optionalTarget_gives keyed).bind fun _ _ => (asPlace_gives _ valued).bind fun _ _ =>
          nextLoop_gives.bind fun _ _ => (block_gives each).bind fun _ _ => .pure trivial
  | function name named _ each =>
      simp only [Accepted, statement]
      exact (parameterNames_gives named).bind fun ps _ =>
        (inBody_gives ps (block_gives each)).bind fun _ _ => .pure trivial
  | classDeclaration _ _ named each =>
      simp only [Accepted, statement]
      exact (asValue_gives (named .value)).bind fun _ _ =>
        (classMembers_gives each _).bind fun _ _ => .pure trivial
  | property name reference _ value =>
      intro rest others found
      rw [classMembers]
      exact (optionalValue_gives value).bind fun _ _ => others _
  | method name named _ each =>
      intro rest others found
      rw [classMembers]
      exact (parameterNames_gives named).bind fun ps _ =>
        (inBody_gives ps (block_gives each)).bind fun _ _ => others _
  | integer _ | float _ | boolean _ | bareWord _ | text _ | void =>
      intro mode
      rw [fragment]
      exact .pure trivial
  | «variable» name reference =>
      intro mode
      rw [fragment]
      exact (declareFor_gives mode _).bind fun _ _ => .pure trivial
  | call _ _ called passed | instantiate _ _ called passed =>
      intro mode
      rw [fragment]
      exact (asValue_gives (called .value)).bind fun _ _ =>
        (values_gives passed).bind fun _ _ => .pure trivial
  | methodCalls _ _ _ receiver called passed =>
      intro mode
      rw [fragment]
      exact (asValue_gives (receiver .value)).bind fun _ _ =>
        (methodCalls_gives called passed _).bind fun _ _ => .pure trivial
  | conditional _ _ _ tested first second =>
      intro mode
      rw [fragment]
      exact (asValue_gives (tested .value)).bind fun _ _ =>
        (choices_gives first second _).bind fun _ _ => .pure trivial
  | array _ each =>
      intro mode
      rw [fragment]
      exact (entries_gives each).bind fun _ _ => .pure trivial
  | sign known _ operand =>
      obtain ⟨o, found, reads⟩ := ofSymbol_sign known
      exact unary_gives found (by simpa [reads] using operand)
  | increment leading known _ operand =>
      obtain ⟨o, found, writes⟩ := ofSymbol_increment known leading
      exact unary_gives found (by simpa [writes] using operand)
  | index reference steps _ filled _ start keyed =>
      exact fun mode => (arrayIndex_gives mode reference steps (start (baseMode mode))
        (emptySteps_of_filled filled mode) keyed).plain
  | access reference steps _ _ start keyed =>
      exact fun mode =>
        (objectProperty_gives mode reference steps (start (baseMode mode)) keyed).plain
  | group _ inner =>
      intro mode
      rw [fragment]
      exact inner mode
  | operators applied _ known _ first others => exact operators_gives applied first known others
  | assign _ _ known _ assigned source others => exact assign_gives assigned source known others
  | @single e value accepted =>
      intro rest others
      cases e with
      | keyValuePair key value => cases value
      | _ =>
          rw [entries]
          · exact (asValue_gives (accepted .value)).bind fun _ _ =>
              others.bind fun _ _ => .pure trivial
          · exact fun _ _ => Node.noConfusion
  | pair _ _ keyed valued =>
      intro rest others
      rw [entries]
      exact (asValue_gives (keyed .value)).bind fun _ _ =>
        (asValue_gives (valued .value)).bind fun _ _ => others.bind fun _ _ => .pure trivial
  | targetVoid | locationVoid =>
      simp only [Accepted, fragment]
      exact .pure ⟨_, rfl⟩
  | targetVariable name reference | locationVariable name reference =>
      simp only [Accepted, fragment]
      exact (declareFor_gives _ _).bind fun _ _ => .pure ⟨_, rfl⟩
  | targetList _ each | locationList _ each =>
      simp only [Accepted, fragment]
      exact (require_gives (by decide) _ _).bind fun _ _ =>
        (places_gives each).bind fun _ _ => .pure ⟨_, rfl⟩
  | targetIndex reference steps _ _ start keyed =>
      exact (arrayIndex_gives .target reference steps start trivial keyed).imp fun _ isPlace =>
        isPlace (by decide)
  | targetAccess reference steps _ _ start keyed =>
      exact (objectProperty_gives .target reference steps start keyed).imp fun _ isPlace =>
        isPlace (by decide)
  | targetGroup _ inner | locationGroup _ inner =>
      simp only [Accepted, fragment]
      exact inner
  | baseTarget _ target => exact Gives.plain target
  | baseValue _ value => exact value .target
  | locationIndex reference steps _ filled _ start keyed =>
      exact (arrayIndex_gives .location reference steps (start .value) filled keyed).imp
        fun _ isPlace => isPlace (by decide)
  | locationAccess reference steps _ _ start keyed =>
      exact (objectProperty_gives .location reference steps (start .value) keyed).imp
        fun _ isPlace => isPlace (by decide)
  | keyLocation _ location => exact Gives.plain location
  | keyValue _ value => exact value .location

/-- A tree compiles where it is a program whose every node is legal where it stands, and nowhere
else. -/
theorem program_ok_iff_legal (root : Node) :
    (∃ p, program root = .ok p) ↔ Legal .root root :=
  ⟨fun ⟨_, compiled⟩ => legal_of_program compiled, Legal.accepted⟩

end TreeScript.Compile
