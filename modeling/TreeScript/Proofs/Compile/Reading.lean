import TreeScript.Proofs.Compile.Grammar

set_option autoImplicit false

/- Expressions that only read. A tree without assignments, increments, decrements and calls compiles
to code without them, in which no place is implied either: a place is compiled as one to write to
only on the left of an assignment, on its right by reference, and under an operator that writes
back; an index, although compiled for its location, is not. -/
namespace TreeScript

/-! Trees -/

namespace Node

/-- The nodes directly below a node. -/
def parts : Node → List Node
  | .program statements => statements
  | .classStatement className members => className :: members
  | .echoStatement e => [e]
  | .expressionStatement e => [e]
  | .foreachStatement array key value statements =>
      array :: key.toList ++ value :: statements
  | .functionStatement _ parameters statements => parameters ++ statements
  | .ifStatement condition consequent alternate => condition :: consequent ++ alternate
  | .returnStatement e => e.toList
  | .methodDefinition name parameters statements => name :: parameters ++ statements
  | .propertyDefinition target value => target :: value.toList
  | .arrayIndex array indices _ => array :: indices.filterMap id
  | .arrayLiteral elements => elements
  | .expression left right => left :: right.map (·.operand)
  | .functionCall function arguments => function :: arguments
  | .keyValuePair key value => [key, value]
  | .list elements => elements
  | .methodCall object calls => object :: calls.flatMap fun call => call.method :: call.arguments
  | .newExpression className arguments => className :: arguments
  | .objectProperty object properties _ => object :: properties
  | .ternary condition options =>
      condition :: options.flatMap fun choice => [choice.consequent, choice.alternate]
  | .unaryExpression _ operand _ => [operand]
  | .inlineHtmlStatement _ | .boolean _ | .float _ | .integer _ | .string _ | .stringLiteral _
  | .variable .. | .void => []

/-- Whether an expression node itself assigns, counts up or down, or calls. -/
def acts : Node → Bool
  | .expression _ right => right.any (·.operator == "=")
  | .unaryExpression token _ _ => token == "++" || token == "--"
  | .functionCall .. | .methodCall .. | .newExpression .. => true
  | _ => false

/-- An expression in which no node assigns, counts up or down, or calls. -/
inductive OnlyReads : Node → Prop
  | node {n : Node} (still : n.acts = false) (parts : ∀ part ∈ n.parts, OnlyReads part) :
      OnlyReads n

theorem OnlyReads.still {n : Node} (reads : n.OnlyReads) : n.acts = false := by
  cases reads with
  | node still _ => exact still

theorem OnlyReads.part {n part : Node} (reads : n.OnlyReads) (member : part ∈ n.parts) :
    part.OnlyReads := by
  cases reads with
  | node _ parts => exact parts part member

end Node

/-! Code -/

namespace Code

mutual
/-- Nothing in the code is assigned, called or instantiated, written back or implied. -/
def Expr.OnlyReads : Expr → Prop
  | .null | .boolean _ | .integer _ | .float _ | .string _ => True
  | .array entries => entriesOnlyRead entries
  | .load place => place.OnlyReads
  | .binary left _ right => left.OnlyReads ∧ right.OnlyReads
  | .unary _ operand => operand.OnlyReads
  | .conditional condition consequent alternate =>
      condition.OnlyReads ∧ consequent.OnlyReads ∧ alternate.OnlyReads
  | .assign .. | .call .. | .callMethod .. | .instantiate .. => False

def entriesOnlyRead : List Entry → Prop
  | [] => True
  | .value e :: rest => e.OnlyReads ∧ entriesOnlyRead rest
  | .pair key e :: rest => key.OnlyReads ∧ e.OnlyReads ∧ entriesOnlyRead rest

def Operand.OnlyReads : Operand → Prop
  | .value e => e.OnlyReads
  | .place _ => False

def Place.OnlyReads : Place → Prop
  | .variable _ | .nullReference => True
  | .element base key => base.OnlyReads ∧ keyOnlyReads key
  | .list places => placesOnlyRead places

def Base.OnlyReads : Base → Prop
  | .value e => e.OnlyReads
  | .implied _ => False

def keyOnlyReads : Option Expr → Prop
  | none => True
  | some e => e.OnlyReads

def placesOnlyRead : List Place → Prop
  | [] => True
  | p :: rest => p.OnlyReads ∧ placesOnlyRead rest
end

end Code

/-! Compilation -/

namespace Compile

open Code (Expr Place Base Entry)

def Fragment.OnlyReads : Fragment → Prop
  | .value e => e.OnlyReads
  | .place p => p.OnlyReads

abbrev KeysOnlyRead (keys : List (Option Expr)) : Prop := ∀ key ∈ keys, Code.keyOnlyReads key

theorem toExpr_reads {f : Fragment} (reads : f.OnlyReads) : f.toExpr.OnlyReads := by
  cases f with
  | value e => exact reads
  | place p =>
      simp only [Fragment.toExpr, Expr.OnlyReads]
      exact reads

theorem asValue_reads {m : CompileM Fragment} (grants : Grants Fragment.OnlyReads m) :
    Grants Expr.OnlyReads (asValue m) :=
  grants.bind fun _ reads => .pure (toExpr_reads reads)

theorem asPlace_reads {m : CompileM Fragment} (kind : Kind)
    (grants : Grants Fragment.OnlyReads m) : Grants Place.OnlyReads (asPlace kind m) := by
  refine grants.bind fun f reads => ?_
  cases f with
  | value e => exact .throw _
  | place p => exact .pure reads

theorem ofPlace_reads (mode : Mode) {p : Place} (reads : p.OnlyReads) :
    (Fragment.ofPlace mode p).OnlyReads := by
  cases mode with
  | value =>
      simp only [Fragment.ofPlace, Fragment.OnlyReads, Expr.OnlyReads]
      exact reads
  | target | location => exact reads

theorem readPlace_reads {container : Expr} {keys : List (Option Expr)} {p : Place}
    (isPlace : readPlace container keys = some p) (contained : container.OnlyReads)
    (keyed : KeysOnlyRead keys) : p.OnlyReads := by
  induction keys generalizing container with
  | nil => simp [readPlace] at isPlace
  | cons key rest ih =>
      obtain ⟨first, later⟩ := List.forall_mem_cons.mp keyed
      have element : (Place.element (.value container) key).OnlyReads := by
        simp only [Place.OnlyReads, Base.OnlyReads]
        exact ⟨contained, first⟩
      cases rest with
      | nil =>
          obtain rfl : Place.element (.value container) key = p := by
            simpa [readPlace] using isPlace
          exact element
      | cons next others =>
          refine ih isPlace ?_ later
          simp only [Expr.OnlyReads]
          exact element

theorem access_reads {mode : Mode} {base : Fragment} {keys : List (Option Expr)} (kind : Kind)
    (reading : mode ≠ .target) (contained : base.OnlyReads) (keyed : KeysOnlyRead keys) :
    Grants Fragment.OnlyReads (accessFragment mode kind base keys) := by
  cases mode with
  | target => exact absurd rfl reading
  | value | location =>
      simp only [accessFragment]
      split
      · next p isPlace =>
          exact .pure (ofPlace_reads _ (readPlace_reads isPlace (toExpr_reads contained) keyed))
      · exact .throw _

theorem baseMode_reads {mode : Mode} (reading : mode ≠ .target) : baseMode mode ≠ .target := by
  cases mode with
  | target => exact absurd rfl reading
  | value | location => exact Mode.noConfusion

/-- A token that is neither increment nor decrement does not write back. -/
theorem writesBack_eq_false {token : String} {leading : Bool} {operator : UnaryOperator}
    (known : UnaryOperator.ofSymbol token leading = some operator)
    (still : (token == "++" || token == "--") = false) : operator.writesBack = false := by
  unfold UnaryOperator.ofSymbol at known
  split at known <;> cases known
  all_goals first
    | rfl
    | exact absurd still (by decide)

mutual
theorem fragment_reads (mode : Mode) (reading : mode ≠ .target) :
    (n : Node) → n.OnlyReads → Grants Fragment.OnlyReads (fragment mode n)
  | .variable name _, _ => by
      rw [fragment]
      refine (declareFor_yields mode _).toGrants.bind fun _ _ => .pure (ofPlace_reads mode ?_)
      simp only [Place.OnlyReads]
  | .arrayIndex array indices _, reads => by
      rw [fragment]
      refine (require_yields _ _ _).toGrants.bind fun _ _ => ?_
      refine (fragment_reads (baseMode mode) (baseMode_reads reading) array
        (reads.part (by simp [Node.parts]))).bind fun base contained => ?_
      refine (indexKeys_reads mode indices fun key member =>
        reads.part (by simp [Node.parts, member])).bind fun keys keyed => ?_
      exact access_reads .arrayIndex reading contained keyed
  | .objectProperty object properties _, reads => by
      rw [fragment]
      refine (require_yields _ _ _).toGrants.bind fun _ _ => ?_
      refine (fragment_reads (baseMode mode) (baseMode_reads reading) object
        (reads.part (by simp [Node.parts]))).bind fun base contained => ?_
      refine (propertyKeys_reads properties fun key member =>
        reads.part (by simp [Node.parts, member])).bind fun keys keyed => ?_
      exact access_reads .objectProperty reading contained keyed
  | .expression left [], reads => by
      rw [fragment]
      exact fragment_reads mode reading left (reads.part (by simp [Node.parts]))
  | .expression left (⟨operator, operand⟩ :: rest), reads => by
      have still : ∀ step ∈ (⟨operator, operand⟩ :: rest : List (Operation Node)),
          step.operator ≠ "=" := by
        simpa [Node.acts] using reads.still
      rw [fragment]
      split
      · next assigns => exact absurd (beq_iff_eq.mp assigns) (still _ List.mem_cons_self)
      · refine (asValue_reads (fragment_reads .value Mode.noConfusion left
          (reads.part (by simp [Node.parts])))).bind fun e read => ?_
        exact operations_reads false e (⟨operator, operand⟩ :: rest) read still fun step member =>
          reads.part (List.mem_cons_of_mem _ (List.mem_map_of_mem member))
  | .unaryExpression token operand leading, reads => by
      rw [fragment]
      split
      · exact .throw _
      · next operator known =>
          have still := writesBack_eq_false known (by simpa only [Node.acts] using reads.still)
          rw [still]
          refine (asValue_reads (fragment_reads .value Mode.noConfusion operand
            (reads.part (by simp [Node.parts])))).bind fun e read => .pure ?_
          simp only [Fragment.OnlyReads, Expr.OnlyReads, Code.Operand.OnlyReads]
          exact read
  | .functionCall .., reads | .methodCall .., reads | .newExpression .., reads =>
      absurd reads.still (by simp [Node.acts])
  | .ternary condition options, reads => by
      rw [fragment]
      refine (asValue_reads (fragment_reads .value Mode.noConfusion condition
        (reads.part (by simp [Node.parts])))).bind fun e read => ?_
      refine (choices_reads e options read fun choice member => ?_).bind fun _ read => .pure read
      exact ⟨reads.part (List.mem_cons_of_mem _ (List.mem_flatMap.mpr ⟨choice, member, by simp⟩)),
        reads.part (List.mem_cons_of_mem _ (List.mem_flatMap.mpr ⟨choice, member, by simp⟩))⟩
  | .arrayLiteral elements, reads => by
      rw [fragment]
      refine (entries_reads elements fun n member =>
        reads.part (by simpa [Node.parts] using member)).bind fun _ read => .pure ?_
      simp only [Fragment.OnlyReads, Expr.OnlyReads]
      exact read
  | .list elements, reads => by
      rw [fragment]
      refine (require_yields _ _ _).toGrants.bind fun _ _ => ?_
      refine (places_reads mode reading elements fun n member =>
        reads.part (by simpa [Node.parts] using member)).bind fun _ read => .pure ?_
      simp only [Fragment.OnlyReads, Place.OnlyReads]
      exact read
  | .string text, _ => by
      rw [fragment]
      refine .pure ?_
      unfold bareWord
      split <;> simp [Fragment.OnlyReads, Expr.OnlyReads]
  | .integer _, _ | .float _, _ | .boolean _, _ | .stringLiteral _, _ => by
      rw [fragment]
      exact .pure (by simp [Fragment.OnlyReads, Expr.OnlyReads])
  | .void, _ => by
      rw [fragment]
      exact .pure (by simp [Fragment.OnlyReads, Place.OnlyReads])
  | .keyValuePair .., _ | .program .., _ | .classStatement .., _ | .echoStatement .., _
  | .expressionStatement .., _ | .foreachStatement .., _ | .functionStatement .., _
  | .ifStatement .., _ | .inlineHtmlStatement .., _ | .returnStatement .., _
  | .methodDefinition .., _ | .propertyDefinition .., _ => by
      rw [fragment]
      exact .throw _

theorem places_reads (mode : Mode) (reading : mode ≠ .target) :
    (nodes : List Node) → (∀ n ∈ nodes, n.OnlyReads) →
      Grants Code.placesOnlyRead (places mode nodes)
  | [], _ => by
      rw [places]
      exact .pure (by simp [Code.placesOnlyRead])
  | n :: rest, reads => by
      obtain ⟨first, later⟩ := List.forall_mem_cons.mp reads
      rw [places]
      refine (asPlace_reads n.kind (fragment_reads mode reading n first)).bind fun p read => ?_
      refine (places_reads mode reading rest later).bind fun ps others => .pure ?_
      simp only [Code.placesOnlyRead]
      exact ⟨read, others⟩

theorem entries_reads :
    (nodes : List Node) → (∀ n ∈ nodes, n.OnlyReads) →
      Grants Code.entriesOnlyRead (entries nodes)
  | [], _ => by
      rw [entries]
      exact .pure (by simp [Code.entriesOnlyRead])
  | n :: rest, reads => by
      obtain ⟨first, later⟩ := List.forall_mem_cons.mp reads
      cases n with
      | keyValuePair key value =>
          rw [entries]
          refine (asValue_reads (fragment_reads .value Mode.noConfusion key
            (first.part (by simp [Node.parts])))).bind fun k keyed => ?_
          refine (asValue_reads (fragment_reads .value Mode.noConfusion value
            (first.part (by simp [Node.parts])))).bind fun e read => ?_
          refine (entries_reads rest later).bind fun es others => .pure ?_
          simp only [Code.entriesOnlyRead]
          exact ⟨keyed, read, others⟩
      | _ =>
          rw [entries]
          · refine (asValue_reads (fragment_reads .value Mode.noConfusion _ first)).bind
              fun e read => ?_
            refine (entries_reads rest later).bind fun es others => .pure ?_
            simp only [Code.entriesOnlyRead]
            exact ⟨read, others⟩
          · exact fun _ _ => Node.noConfusion

theorem indexKeys_reads (mode : Mode) :
    (indices : List (Option Node)) → (∀ key, some key ∈ indices → key.OnlyReads) →
      Grants KeysOnlyRead (indexKeys mode indices)
  | [], _ => by
      rw [indexKeys]
      exact .pure (by simp [KeysOnlyRead])
  | none :: rest, reads => by
      rw [indexKeys]
      refine (require_yields _ _ _).toGrants.bind fun _ _ => ?_
      refine (indexKeys_reads mode rest fun key member =>
        reads key (List.mem_cons_of_mem _ member)).bind fun keys others => .pure ?_
      refine List.forall_mem_cons.mpr ⟨?_, others⟩
      simp only [Code.keyOnlyReads]
  | some key :: rest, reads => by
      rw [indexKeys]
      refine (asValue_reads (fragment_reads .location Mode.noConfusion key
        (reads key List.mem_cons_self))).bind fun e read => ?_
      refine (indexKeys_reads mode rest fun key member =>
        reads key (List.mem_cons_of_mem _ member)).bind fun keys others => .pure ?_
      refine List.forall_mem_cons.mpr ⟨?_, others⟩
      simp only [Code.keyOnlyReads]
      exact read

theorem propertyKeys_reads :
    (properties : List Node) → (∀ key ∈ properties, key.OnlyReads) →
      Grants KeysOnlyRead (propertyKeys properties)
  | [], _ => by
      rw [propertyKeys]
      exact .pure (by simp [KeysOnlyRead])
  | key :: rest, reads => by
      obtain ⟨first, later⟩ := List.forall_mem_cons.mp reads
      rw [propertyKeys]
      refine (asValue_reads (fragment_reads .location Mode.noConfusion key first)).bind
        fun e read => ?_
      refine (propertyKeys_reads rest later).bind fun keys others => .pure ?_
      refine List.forall_mem_cons.mpr ⟨?_, others⟩
      simp only [Code.keyOnlyReads]
      exact read

theorem operations_reads (assigns : Bool) (e : Expr) :
    (steps : List (Operation Node)) → e.OnlyReads → (∀ step ∈ steps, step.operator ≠ "=") →
      (∀ step ∈ steps, step.operand.OnlyReads) →
      Grants Fragment.OnlyReads (operations assigns (.value e) steps)
  | [], read, _, _ => by
      rw [operations]
      exact .pure read
  | ⟨token, operand⟩ :: rest, read, still, reads => by
      obtain ⟨first, later⟩ := List.forall_mem_cons.mp still
      obtain ⟨operandReads, others⟩ := List.forall_mem_cons.mp reads
      unfold operations
      split
      · exact .throw _
      · next o _ =>
          refine (asValue_reads (fragment_reads .value Mode.noConfusion operand operandReads)).bind
            fun right readRight => ?_
          refine operations_reads assigns _ rest ?_ later others
          simp only [Fragment.toExpr, Expr.OnlyReads]
          exact ⟨read, readRight⟩
      · next found => exact absurd (ofSymbol_eq_assign.mp found) first

theorem choices_reads (condition : Expr) :
    (options : List (Choice Node)) → condition.OnlyReads →
      (∀ choice ∈ options, choice.consequent.OnlyReads ∧ choice.alternate.OnlyReads) →
      Grants Expr.OnlyReads (choices condition options)
  | [], read, _ => by
      rw [choices]
      exact .pure read
  | ⟨consequent, alternate⟩ :: rest, read, reads => by
      obtain ⟨⟨first, second⟩, later⟩ := List.forall_mem_cons.mp reads
      rw [choices]
      refine (asValue_reads (fragment_reads .value Mode.noConfusion consequent first)).bind
        fun e readFirst => ?_
      refine (asValue_reads (fragment_reads .value Mode.noConfusion alternate second)).bind
        fun f readSecond => ?_
      refine choices_reads _ rest ?_ later
      simp only [Expr.OnlyReads]
      exact ⟨read, readFirst, readSecond⟩
end

/-- A tree that only reads compiles, wanted for its value, to code that only reads. -/
theorem valueOf_reads {n : Node} (reads : n.OnlyReads) : Grants Expr.OnlyReads (valueOf n) :=
  asValue_reads (fragment_reads .value Mode.noConfusion n reads)

end Compile
end TreeScript
