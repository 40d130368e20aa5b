import TreeScript.Session
import TreeScript.Proofs.Compile.Accepted
import TreeScript.Proofs.Compile.Blocks
import TreeScript.Proofs.Compile.Reading
import TreeScript.Proofs.Run

set_option autoImplicit false

/- What compiled code loads from. A new element and a list of places can be written to but not read;
the compiler lets them be loaded from in one position only, directly as a key, for there it wants a
location and makes a value of it. -/
namespace TreeScript

/-! Trees -/

namespace Node

/-- The node names a place that can only be written to: a list, or a chain with an empty step. -/
def isOpen : Node → Bool
  | .list _ => true
  | .arrayIndex _ indices _ => indices.any (·.isNone)
  | .expression left [] => left.isOpen
  | _ => false

/-- What the steps of a chain are taken by. -/
def keys : Node → List Node
  | .arrayIndex _ indices _ => indices.filterMap id
  | .objectProperty _ properties _ => properties
  | _ => []

/-- A tree in which no key is open, at any depth. -/
inductive KeysClosed : Node → Prop
  | node {n : Node} (here : ∀ key ∈ n.keys, key.isOpen = false)
      (parts : ∀ part ∈ n.parts, KeysClosed part) : KeysClosed n

end Node

/-! Code -/

namespace Code

/-- A load in code: the place, and whether the load stands directly as a key. -/
structure Load where
  place : Place
  isKey : Bool

/-- The place can only be written to. -/
def Place.isOpen : Place → Bool
  | .element _ none | .list _ => true
  | _ => false

mutual
/-- The loads in an expression, at any depth. `isKey` tells whether the expression is a key. -/
def Expr.loads (isKey : Bool) : Expr → List Load
  | .null | .boolean _ | .integer _ | .float _ | .string _ => []
  | .array entries => loadsInEntries entries
  | .load place => ⟨place, isKey⟩ :: place.loads
  | .binary left _ right => left.loads false ++ right.loads false
  | .assign target source => target.loads ++ source.loads
  | .unary _ operand => operand.loads
  | .call function arguments => function.loads false ++ loadsInAll arguments
  | .callMethod object method arguments =>
      object.loads false ++ method.loads false ++ loadsInAll arguments
  | .instantiate className arguments => className.loads false ++ loadsInAll arguments
  | .conditional condition consequent alternate =>
      condition.loads false ++ consequent.loads false ++ alternate.loads false

def loadsInAll : List Expr → List Load
  | [] => []
  | e :: rest => e.loads false ++ loadsInAll rest

def loadsInEntries : List Entry → List Load
  | [] => []
  | .value e :: rest => e.loads false ++ loadsInEntries rest
  | .pair key e :: rest => key.loads false ++ e.loads false ++ loadsInEntries rest

def Source.loads : Source → List Load
  | .value e => e.loads false
  | .reference p => p.loads

def Operand.loads : Operand → List Load
  | .value e => e.loads false
  | .place p => p.loads

def Place.loads : Place → List Load
  | .variable _ | .nullReference => []
  | .element base key => base.loads ++ loadsInKey key
  | .list places => loadsInPlaces places

def Base.loads : Base → List Load
  | .value e => e.loads false
  | .implied p => p.loads

def loadsInKey : Option Expr → List Load
  | none => []
  | some e => e.loads true

def loadsInPlaces : List Place → List Load
  | [] => []
  | p :: rest => p.loads ++ loadsInPlaces rest
end

def loadsInResult : Option Expr → List Load
  | none => []
  | some e => e.loads false

def loadsInTarget : Option Place → List Load
  | none => []
  | some p => p.loads

def loadsInDefaults (defaults : List (String × Expr)) : List Load :=
  defaults.flatMap fun entry => entry.2.loads false

mutual
/-- The loads in a statement, at any depth, those of the functions and methods it defines
included. -/
def Stmt.loads : Stmt → List Load
  | .defineVariables _ | .bindArgument .. | .bindThis | .inlineHtml _ => []
  | .echo e | .expression e => e.loads false
  | .ifElse condition consequent alternate =>
      condition.loads false ++ loadsOf consequent ++ loadsOf alternate
  | .foreach _ array key value _ body =>
      array.loads false ++ loadsInTarget key ++ value.loads ++ loadsOf body
  | .ret e => loadsInResult e
  | .defineFunction ⟨_, _, body, _⟩ => loadsOf body
  | .defineClass ⟨name, properties, methods⟩ =>
      name.loads false ++ loadsInDefaults properties ++ loadsOfMethods methods
  | .scoped body => loadsOf body

def loadsOf : Block → List Load
  | [] => []
  | s :: rest => s.loads ++ loadsOf rest

def loadsOfMethods : List (String × Function Stmt) → List Load
  | [] => []
  | (_, ⟨_, _, body, _⟩) :: rest => loadsOf body ++ loadsOfMethods rest
end

theorem loadsOf_append (b b' : Block) : loadsOf (b ++ b') = loadsOf b ++ loadsOf b' := by
  induction b with
  | nil => rfl
  | cons s rest ih => rw [List.cons_append, loadsOf, loadsOf, ih, List.append_assoc]

theorem loadsOf_eq_nil {b : Block} (none : ∀ s ∈ b, s.isPrologue = true) : loadsOf b = [] := by
  induction b with
  | nil => rfl
  | cons s rest ih =>
      obtain ⟨here, later⟩ := List.forall_mem_cons.mp none
      have bare : s.loads = [] := by
        cases s with
        | defineVariables _ | bindArgument _ _ | bindThis => rfl
        | _ => cases here
      rw [loadsOf, bare, ih later, List.nil_append]

theorem loadsOfMethods_eq_flatMap (methods : List (String × Function Stmt)) :
    loadsOfMethods methods = methods.flatMap fun entry => loadsOf entry.2.body := by
  induction methods with
  | nil => rfl
  | cons entry rest ih =>
      rw [loadsOfMethods, ih]
      rfl

end Code

/-! Compilation -/

namespace Compile

open Code (Expr Place Base Entry Stmt Block Function Load loadsOf loadsInKey loadsInAll
  loadsInEntries loadsInPlaces loadsOf_append)

theorem Grants.and {α : Type} {P Q : α → Prop} {m : CompileM α} (first : Grants P m)
    (second : Grants Q m) : Grants (fun a => P a ∧ Q a) m :=
  ⟨fun done => ⟨first.holds done, second.holds done⟩⟩

/-- The node has no open key, unless open keys are let through. -/
def Tame (lax : Bool) (n : Node) : Prop := lax = false → n.KeysClosed

theorem Tame.part {lax : Bool} {n part : Node} (tame : Tame lax n) (member : part ∈ n.parts) :
    Tame lax part := by
  intro strict
  cases tame strict with
  | node _ parts => exact parts part member

theorem Tame.key {lax : Bool} {n key : Node} (tame : Tame lax n) (member : key ∈ n.keys)
    (isOpen : key.isOpen = true) : lax = true := by
  cases lax with
  | true => rfl
  | false =>
      cases tame rfl with
      | node here _ =>
          rw [here key member] at isOpen
          cases isOpen

/-- The places of these loads can be read, but for keys where these are let through. -/
def Kept (lax : Bool) (loads : List Load) : Prop :=
  ∀ l ∈ loads, l.place.isOpen = true → lax = true ∧ l.isKey = true

section rules

variable {lax : Bool}

@[simp] theorem kept_nil : Kept lax [] := by simp [Kept]

@[simp] theorem kept_append {first second : List Load} :
    Kept lax (first ++ second) ↔ Kept lax first ∧ Kept lax second := List.forall_mem_append

@[simp] theorem kept_cons {l : Load} {rest : List Load} :
    Kept lax (l :: rest) ↔
      (l.place.isOpen = true → lax = true ∧ l.isKey = true) ∧ Kept lax rest :=
  List.forall_mem_cons

/-- What is in order elsewhere is in order as a key. -/
theorem Kept.asKey {e : Expr} (kept : Kept lax (e.loads false)) : Kept lax (e.loads true) := by
  cases e with
  | load p =>
      rw [Expr.loads, kept_cons] at kept ⊢
      refine ⟨fun isOpen => ?_, kept.2⟩
      cases (kept.1 isOpen).2
  | _ => simpa only [Expr.loads] using kept

/-- How a place that a node is compiled to can be open: what is wanted for its value is not, and
what is wanted for its location shows it. -/
def OpensBy (mode : Mode) (n : Node) (p : Place) : Prop :=
  match mode with
  | .value => p.isOpen = false
  | .target => True
  | .location => p.isOpen = true → n.isOpen = true

theorem OpensBy.closed {p : Place} (isClosed : p.isOpen = false) (mode : Mode) (n : Node) :
    OpensBy mode n p := by
  cases mode with
  | value => exact isClosed
  | target => trivial
  | location =>
      intro isOpen
      rw [isClosed] at isOpen
      cases isOpen

/-- What a node is compiled to keeps its loads in order. -/
def Fragment.Kept (lax : Bool) (mode : Mode) (n : Node) : Fragment → Prop
  | .value e => Compile.Kept lax (e.loads false)
  | .place p => Compile.Kept lax p.loads ∧ OpensBy mode n p

theorem toExpr_kept {f : Fragment} {n : Node} (kept : f.Kept lax .value n) :
    Kept lax (f.toExpr.loads false) := by
  cases f with
  | value e => exact kept
  | place p =>
      obtain ⟨inside, isClosed⟩ := kept
      rw [Fragment.toExpr, Expr.loads, kept_cons]
      refine ⟨fun isOpen => ?_, inside⟩
      have isClosed : p.isOpen = false := isClosed
      rw [isClosed] at isOpen
      cases isOpen

theorem toKey_kept {f : Fragment} {n : Node} (tame : n.isOpen = true → lax = true)
    (kept : f.Kept lax .location n) : Kept lax (f.toExpr.loads true) := by
  cases f with
  | value e => exact Kept.asKey kept
  | place p =>
      obtain ⟨inside, shown⟩ := kept
      rw [Fragment.toExpr, Expr.loads, kept_cons]
      exact ⟨fun isOpen => ⟨tame (shown isOpen), rfl⟩, inside⟩

theorem toBase_kept {f : Fragment} {n : Node} (kept : f.Kept lax .target n) :
    Kept lax f.toBase.loads := by
  cases f with
  | value e =>
      rw [Fragment.toBase, Base.loads]
      exact kept
  | place p =>
      rw [Fragment.toBase, Base.loads]
      exact kept.1

theorem asValue_kept {n : Node} {m : CompileM Fragment}
    (grants : Grants (Fragment.Kept lax .value n) m) :
    Grants (fun e => Kept lax (e.loads false)) (asValue m) :=
  grants.bind fun _ kept => .pure (toExpr_kept kept)

theorem asKey_kept {n : Node} {m : CompileM Fragment} (tame : n.isOpen = true → lax = true)
    (grants : Grants (Fragment.Kept lax .location n) m) :
    Grants (fun e => Kept lax (e.loads true)) (asValue m) :=
  grants.bind fun _ kept => .pure (toKey_kept tame kept)

theorem asPlace_kept {mode : Mode} {n : Node} {m : CompileM Fragment} (kind : Kind)
    (grants : Grants (Fragment.Kept lax mode n) m) :
    Grants (fun p => Kept lax p.loads) (asPlace kind m) := by
  refine grants.bind fun f kept => ?_
  cases f with
  | value e => exact .throw _
  | place p => exact .pure kept.1

theorem ofPlace_kept {mode : Mode} {n : Node} {p : Place} (inside : Kept lax p.loads)
    (opens : OpensBy mode n p) : (Fragment.ofPlace mode p).Kept lax mode n := by
  cases mode with
  | value => exact toExpr_kept (n := n) (f := .place p) ⟨inside, opens⟩
  | target | location => exact ⟨inside, opens⟩

abbrev KeysKept (lax : Bool) (keys : List (Option Expr)) : Prop :=
  ∀ key ∈ keys, Kept lax (loadsInKey key)

theorem targetPlace_kept {base : Base} {keys : List (Option Expr)} {p : Place}
    (isPlace : targetPlace base keys = some p) (contained : Kept lax base.loads)
    (keyed : KeysKept lax keys) : Kept lax p.loads := by
  induction keys generalizing base with
  | nil => simp [targetPlace] at isPlace
  | cons key rest ih =>
      obtain ⟨first, later⟩ := List.forall_mem_cons.mp keyed
      have element : Kept lax (Place.element base key).loads := by
        rw [Place.loads, kept_append]
        exact ⟨contained, first⟩
      cases rest with
      | nil =>
          obtain rfl : Place.element base key = p := by simpa [targetPlace] using isPlace
          exact element
      | cons next others =>
          refine ih isPlace ?_ later
          rw [Base.loads]
          exact element

/-- A chain that is read is open only where a step of it is empty. -/
theorem readPlace_kept {container : Expr} {keys : List (Option Expr)} {p : Place}
    (isPlace : readPlace container keys = some p) (contained : Kept lax (container.loads false))
    (keyed : KeysKept lax keys) (filled : none ∉ keys.dropLast) :
    Kept lax p.loads ∧ (p.isOpen = true → none ∈ keys) := by
  induction keys generalizing container with
  | nil => simp [readPlace] at isPlace
  | cons key rest ih =>
      obtain ⟨first, later⟩ := List.forall_mem_cons.mp keyed
      have element : Kept lax (Place.element (.value container) key).loads := by
        rw [Place.loads, Base.loads, kept_append]
        exact ⟨contained, first⟩
      cases rest with
      | nil =>
          obtain rfl : Place.element (.value container) key = p := by
            simpa [readPlace] using isPlace
          refine ⟨element, fun isOpen => ?_⟩
          cases key with
          | none => exact List.mem_cons_self
          | some _ => cases isOpen
      | cons next others =>
          rw [List.dropLast_cons_cons, List.mem_cons, not_or] at filled
          have loaded : Kept lax ((Expr.load (.element (.value container) key)).loads false) := by
            rw [Expr.loads, kept_cons]
            refine ⟨fun isOpen => ?_, element⟩
            cases key with
            | none => exact absurd rfl filled.1
            | some _ => cases isOpen
          obtain ⟨inside, opens⟩ := ih isPlace loaded later filled.2
          exact ⟨inside, fun isOpen => List.mem_cons_of_mem _ (opens isOpen)⟩

/-- Where the keys of a chain may be absent, and that the node shows it. -/
def StepsShown (mode : Mode) (n : Node) (keys : List (Option Expr)) : Prop :=
  match mode with
  | .value => none ∉ keys
  | .target => True
  | .location => none ∉ keys.dropLast ∧ (none ∈ keys → n.isOpen = true)

theorem access_kept {mode : Mode} {base : Fragment} {keys : List (Option Expr)} {n container : Node}
    (kind : Kind) (contained : base.Kept lax (baseMode mode) container)
    (keyed : KeysKept lax keys) (shown : StepsShown mode n keys) :
    Grants (Fragment.Kept lax mode n) (accessFragment mode kind base keys) := by
  unfold accessFragment
  simp only
  split
  · next p isPlace =>
      refine .pure ?_
      cases mode with
      | target =>
          have inside := targetPlace_kept isPlace (toBase_kept contained) keyed
          exact ofPlace_kept inside trivial
      | value =>
          have filled : none ∉ keys.dropLast := fun member =>
            shown (List.dropLast_subset _ member)
          obtain ⟨inside, opens⟩ := readPlace_kept isPlace (toExpr_kept contained) keyed filled
          exact ofPlace_kept inside (Bool.eq_false_iff.mpr fun isOpen => shown (opens isOpen))
      | location =>
          obtain ⟨inside, opens⟩ :=
            readPlace_kept isPlace (toExpr_kept contained) keyed shown.1
          exact ofPlace_kept inside fun isOpen => shown.2 (opens isOpen)
  · exact .throw _

/-- The keys of a chain are absent where its steps are empty. -/
def Aligned (indices : List (Option Node)) (keys : List (Option Expr)) : Prop :=
  keys.map Option.isSome = indices.map Option.isSome

theorem none_mem_iff {α : Type} {l : List (Option α)} : none ∈ l ↔ false ∈ l.map Option.isSome := by
  simp

theorem stepsShown_index {mode : Mode} {array : Node} {indices : List (Option Node)}
    {keys : List (Option Expr)} (reference : Bool) (aligned : Aligned indices keys)
    (allowed : EmptySteps mode indices) :
    StepsShown mode (.arrayIndex array indices reference) keys := by
  have same : none ∈ keys ↔ none ∈ indices := by rw [none_mem_iff, none_mem_iff, aligned]
  have early : none ∈ keys.dropLast ↔ none ∈ indices.dropLast := by
    rw [none_mem_iff, none_mem_iff, List.map_dropLast, List.map_dropLast, aligned]
  cases mode with
  | value => exact fun member => allowed (same.mp member)
  | target => trivial
  | location =>
      refine ⟨fun member => allowed (early.mp member), fun member => ?_⟩
      exact List.any_eq_true.mpr ⟨none, same.mp member, rfl⟩

theorem stepsShown_property {keys : List (Option Expr)} (filled : none ∉ keys) (mode : Mode)
    (n : Node) : StepsShown mode n keys := by
  cases mode with
  | value => exact filled
  | target => trivial
  | location =>
      exact ⟨fun member => filled (List.dropLast_subset _ member),
        fun member => absurd member filled⟩

theorem expression_kept {left : Node} {f : Fragment} {mode : Mode} (kept : f.Kept lax mode left) :
    f.Kept lax mode (.expression left []) := by
  cases f with
  | value e => exact kept
  | place p =>
      refine ⟨kept.1, ?_⟩
      cases mode with
      | value => exact kept.2
      | target => trivial
      | location => exact kept.2

mutual
/-- The loads of what an expression is compiled to are in order. -/
theorem fragment_kept (mode : Mode) :
    (n : Node) → Tame lax n → Grants (Fragment.Kept lax mode n) (fragment mode n)
  | .variable name _, _ => by
      rw [fragment]
      refine (declareFor_yields mode _).toGrants.bind fun _ _ => .pure ?_
      exact ofPlace_kept (by simp [Place.loads]) (.closed rfl mode _)
  | .arrayIndex array indices reference, tame => by
      have allowed := (indexKeys_yields mode indices).toGrants
      rw [fragment]
      refine (require_yields _ _ _).toGrants.bind fun _ _ => ?_
      refine (fragment_kept (baseMode mode) array (tame.part (by simp [Node.parts]))).bind
        fun base contained => ?_
      have keys := indexKeys_kept mode indices
        (fun key member => tame.part (by simp [Node.parts, member]))
        (fun key member => tame.key (by simp [Node.keys, member]))
      refine (keys.and allowed).bind fun keys found => ?_
      obtain ⟨⟨keyed, aligned⟩, allowed, -⟩ := found
      exact access_kept .arrayIndex contained keyed (stepsShown_index reference aligned allowed)
  | .objectProperty object properties _, tame => by
      rw [fragment]
      refine (require_yields _ _ _).toGrants.bind fun _ _ => ?_
      refine (fragment_kept (baseMode mode) object (tame.part (by simp [Node.parts]))).bind
        fun base contained => ?_
      refine (propertyKeys_kept properties
        (fun key member => tame.part (by simp [Node.parts, member]))
        (fun key member => tame.key (by simpa [Node.keys] using member))).bind fun keys found => ?_
      exact access_kept .objectProperty contained found.1 (stepsShown_property found.2 mode _)
  | .expression left [], tame => by
      rw [fragment]
      exact (fragment_kept mode left (tame.part (by simp [Node.parts]))).imp fun _ kept =>
        expression_kept kept
  | .expression left (⟨operator, operand⟩ :: rest), tame => by
      have first : Tame lax left := tame.part (by simp [Node.parts])
      have second : Tame lax operand := tame.part (by simp [Node.parts])
      have others : ∀ step ∈ rest, Tame lax step.operand := fun step member =>
        tame.part (List.mem_cons_of_mem _ (List.mem_map_of_mem (List.mem_cons_of_mem _ member)))
      rw [fragment]
      split
      · next assigns =>
          refine (asPlace_kept left.kind (fragment_kept .target left first)).bind fun p target => ?_
          -- The first operation takes the place; those after it find a value.
          unfold operations
          rw [beq_iff_eq.mp assigns]
          simp only [ofSymbol_eq_assign.mpr rfl, Bool.true_and]
          split
          · refine (asPlace_kept operand.kind (fragment_kept .target operand second)).bind
              fun q source => ?_
            refine (operations_kept true _ rest ?_ others).imp fun _ kept => kept mode _
            rw [Expr.loads, Code.Source.loads, kept_append]
            exact ⟨target, source⟩
          · refine (asValue_kept (fragment_kept .value operand second)).bind fun e source => ?_
            refine (operations_kept true _ rest ?_ others).imp fun _ kept => kept mode _
            rw [Expr.loads, Code.Source.loads, kept_append]
            exact ⟨target, source⟩
      · refine (asValue_kept (fragment_kept .value left first)).bind fun e kept => ?_
        exact (operations_kept false e (⟨operator, operand⟩ :: rest) kept
          (List.forall_mem_cons.mpr ⟨second, others⟩)).imp fun _ kept => kept mode _
  | .unaryExpression token operand leading, tame => by
      have inside : Tame lax operand := tame.part (by simp [Node.parts])
      rw [fragment]
      split
      · exact .throw _
      · split
        · refine (asPlace_kept operand.kind (fragment_kept .target operand inside)).bind
            fun p kept => .pure ?_
          simpa only [Fragment.Kept, Expr.loads, Code.Operand.loads] using kept
        · refine (asValue_kept (fragment_kept .value operand inside)).bind fun e kept => .pure ?_
          simpa only [Fragment.Kept, Expr.loads, Code.Operand.loads] using kept
  | .functionCall function arguments, tame => by
      rw [fragment]
      refine (asValue_kept (fragment_kept .value function
        (tame.part (by simp [Node.parts])))).bind fun f called => ?_
      refine (values_kept arguments fun n member =>
        tame.part (by simp [Node.parts, member])).bind fun es passed => .pure ?_
      simpa only [Fragment.Kept, Expr.loads, kept_append] using ⟨called, passed⟩
  | .methodCall object calls, tame => by
      rw [fragment]
      refine (asValue_kept (fragment_kept .value object
        (tame.part (by simp [Node.parts])))).bind fun e kept => ?_
      refine (methodCalls_kept e calls kept fun call member => ?_).bind fun _ kept => .pure kept
      have inside : ∀ n ∈ call.method :: call.arguments, Tame lax n := fun n part =>
        tame.part (List.mem_cons_of_mem _ (List.mem_flatMap.mpr ⟨call, member, part⟩))
      exact List.forall_mem_cons.mp inside
  | .newExpression className arguments, tame => by
      rw [fragment]
      refine (asValue_kept (fragment_kept .value className
        (tame.part (by simp [Node.parts])))).bind fun c named => ?_
      refine (values_kept arguments fun n member =>
        tame.part (by simp [Node.parts, member])).bind fun es passed => .pure ?_
      simpa only [Fragment.Kept, Expr.loads, kept_append] using ⟨named, passed⟩
  | .ternary condition options, tame => by
      rw [fragment]
      refine (asValue_kept (fragment_kept .value condition
        (tame.part (by simp [Node.parts])))).bind fun e kept => ?_
      refine (choices_kept e options kept fun choice member => ?_).bind fun _ kept => .pure kept
      exact ⟨tame.part (List.mem_cons_of_mem _ (List.mem_flatMap.mpr ⟨choice, member, by simp⟩)),
        tame.part (List.mem_cons_of_mem _ (List.mem_flatMap.mpr ⟨choice, member, by simp⟩))⟩
  | .arrayLiteral elements, tame => by
      rw [fragment]
      refine (entries_kept elements fun n member =>
        tame.part (by simpa [Node.parts] using member)).bind fun _ kept => .pure ?_
      simpa only [Fragment.Kept, Expr.loads] using kept
  | .list elements, tame => by
      rw [fragment]
      refine (require_yields _ _ _).toGrants.bind fun _ written => ?_
      refine (places_kept mode elements fun n member =>
        tame.part (by simpa [Node.parts] using member)).bind fun ps kept => .pure ⟨?_, ?_⟩
      · simpa only [Place.loads] using kept
      · cases mode with
        | value => cases written
        | target => trivial
        | location => exact fun _ => rfl
  | .string text, _ => by
      rw [fragment]
      refine .pure ?_
      unfold bareWord
      split <;> simp [Fragment.Kept, Expr.loads]
  | .integer _, _ | .float _, _ | .boolean _, _ | .stringLiteral _, _ => by
      rw [fragment]
      exact .pure (by simp [Fragment.Kept, Expr.loads])
  | .void, _ => by
      rw [fragment]
      exact .pure ⟨by simp [Place.loads], .closed rfl mode _⟩
  | .keyValuePair .., _ | .program .., _ | .classStatement .., _ | .echoStatement .., _
  | .expressionStatement .., _ | .foreachStatement .., _ | .functionStatement .., _
  | .ifStatement .., _ | .inlineHtmlStatement .., _ | .returnStatement .., _
  | .methodDefinition .., _ | .propertyDefinition .., _ => by
      rw [fragment]
      exact .throw _

theorem values_kept : (nodes : List Node) → (∀ n ∈ nodes, Tame lax n) →
    Grants (fun es => Kept lax (loadsInAll es)) (values nodes)
  | [], _ => by
      rw [values]
      exact .pure (by simp [loadsInAll])
  | n :: rest, tame => by
      obtain ⟨first, later⟩ := List.forall_mem_cons.mp tame
      rw [values]
      refine (asValue_kept (fragment_kept .value n first)).bind fun e kept => ?_
      refine (values_kept rest later).bind fun es others => .pure ?_
      simpa only [loadsInAll, kept_append] using ⟨kept, others⟩

theorem places_kept (mode : Mode) : (nodes : List Node) → (∀ n ∈ nodes, Tame lax n) →
    Grants (fun ps => Kept lax (loadsInPlaces ps)) (places mode nodes)
  | [], _ => by
      rw [places]
      exact .pure (by simp [loadsInPlaces])
  | n :: rest, tame => by
      obtain ⟨first, later⟩ := List.forall_mem_cons.mp tame
      rw [places]
      refine (asPlace_kept n.kind (fragment_kept mode n first)).bind fun p kept => ?_
      refine (places_kept mode rest later).bind fun ps others => .pure ?_
      simpa only [loadsInPlaces, kept_append] using ⟨kept, others⟩

theorem entries_kept : (nodes : List Node) → (∀ n ∈ nodes, Tame lax n) →
    Grants (fun es => Kept lax (loadsInEntries es)) (entries nodes)
  | [], _ => by
      rw [entries]
      exact .pure (by simp [loadsInEntries])
  | n :: rest, tame => by
      obtain ⟨first, later⟩ := List.forall_mem_cons.mp tame
      cases n with
      | keyValuePair key value =>
          rw [entries]
          refine (asValue_kept (fragment_kept .value key
            (first.part (by simp [Node.parts])))).bind fun k keyed => ?_
          refine (asValue_kept (fragment_kept .value value
            (first.part (by simp [Node.parts])))).bind fun e kept => ?_
          refine (entries_kept rest later).bind fun es others => .pure ?_
          simpa only [loadsInEntries, kept_append] using ⟨⟨keyed, kept⟩, others⟩
      | _ =>
          rw [entries]
          · refine (asValue_kept (fragment_kept .value _ first)).bind fun e kept => ?_
            refine (entries_kept rest later).bind fun es others => .pure ?_
            simpa only [loadsInEntries, kept_append] using ⟨kept, others⟩
          · exact fun _ _ => Node.noConfusion

theorem indexKeys_kept (mode : Mode) : (indices : List (Option Node)) →
    (∀ key, some key ∈ indices → Tame lax key) →
    (∀ key, some key ∈ indices → key.isOpen = true → lax = true) →
      Grants (fun keys => KeysKept lax keys ∧ Aligned indices keys) (indexKeys mode indices)
  | [], _, _ => by
      rw [indexKeys]
      exact .pure ⟨by simp [KeysKept], rfl⟩
  | none :: rest, tame, opens => by
      rw [indexKeys]
      refine (require_yields _ _ _).toGrants.bind fun _ _ => ?_
      refine (indexKeys_kept mode rest (fun key member => tame key (List.mem_cons_of_mem _ member))
        fun key member => opens key (List.mem_cons_of_mem _ member)).bind fun keys found => ?_
      refine .pure ⟨List.forall_mem_cons.mpr ⟨by simp [loadsInKey], found.1⟩, ?_⟩
      rw [Aligned, List.map_cons, List.map_cons, found.2]
      rfl
  | some key :: rest, tame, opens => by
      rw [indexKeys]
      refine (asKey_kept (opens key List.mem_cons_self)
        (fragment_kept .location key (tame key List.mem_cons_self))).bind fun e kept => ?_
      refine (indexKeys_kept mode rest (fun key member => tame key (List.mem_cons_of_mem _ member))
        fun key member => opens key (List.mem_cons_of_mem _ member)).bind fun keys found => ?_
      refine .pure ⟨List.forall_mem_cons.mpr ⟨by simpa only [loadsInKey] using kept, found.1⟩, ?_⟩
      rw [Aligned, List.map_cons, List.map_cons, found.2]
      rfl

theorem propertyKeys_kept : (properties : List Node) → (∀ key ∈ properties, Tame lax key) →
    (∀ key ∈ properties, key.isOpen = true → lax = true) →
      Grants (fun keys => KeysKept lax keys ∧ none ∉ keys) (propertyKeys properties)
  | [], _, _ => by
      rw [propertyKeys]
      exact .pure ⟨by simp [KeysKept], by simp⟩
  | key :: rest, tame, opens => by
      obtain ⟨first, later⟩ := List.forall_mem_cons.mp tame
      obtain ⟨here, others⟩ := List.forall_mem_cons.mp opens
      rw [propertyKeys]
      refine (asKey_kept here (fragment_kept .location key first)).bind fun e kept => ?_
      refine (propertyKeys_kept rest later others).bind fun keys found => ?_
      refine .pure ⟨List.forall_mem_cons.mpr ⟨by simpa only [loadsInKey] using kept, found.1⟩, ?_⟩
      simpa using found.2

/-- The operations of a chain from a value on. An assignment that comes later finds no place. -/
theorem operations_kept (assigns : Bool) (e : Expr) : (ops : List (Operation Node)) →
    Kept lax (e.loads false) → (∀ step ∈ ops, Tame lax step.operand) →
      Grants (fun f => ∀ mode n, Fragment.Kept lax mode n f) (operations assigns (.value e) ops)
  | [], kept, _ => by
      rw [operations]
      exact .pure fun _ _ => kept
  | ⟨token, operand⟩ :: rest, kept, tame => by
      obtain ⟨first, later⟩ := List.forall_mem_cons.mp tame
      unfold operations
      split
      · exact .throw _
      · refine (asValue_kept (fragment_kept .value operand first)).bind fun right other => ?_
        refine operations_kept assigns _ rest ?_ later
        rw [Expr.loads, kept_append]
        exact ⟨kept, other⟩
      · exact .throw _

theorem methodCalls_kept (object : Expr) : (calls : List (Call Node)) →
    Kept lax (object.loads false) →
    (∀ call ∈ calls, Tame lax call.method ∧ ∀ n ∈ call.arguments, Tame lax n) →
      Grants (fun e => Kept lax (e.loads false)) (methodCalls object calls)
  | [], kept, _ => by
      rw [methodCalls]
      exact .pure kept
  | ⟨method, arguments⟩ :: rest, kept, tame => by
      obtain ⟨⟨first, passed⟩, later⟩ := List.forall_mem_cons.mp tame
      rw [methodCalls]
      refine (asValue_kept (fragment_kept .value method first)).bind fun e named => ?_
      refine (values_kept arguments passed).bind fun es others => ?_
      refine methodCalls_kept _ rest ?_ later
      simpa only [Expr.loads, kept_append] using ⟨⟨kept, named⟩, others⟩

theorem choices_kept (condition : Expr) : (options : List (Choice Node)) →
    Kept lax (condition.loads false) →
    (∀ choice ∈ options, Tame lax choice.consequent ∧ Tame lax choice.alternate) →
      Grants (fun e => Kept lax (e.loads false)) (choices condition options)
  | [], kept, _ => by
      rw [choices]
      exact .pure kept
  | ⟨consequent, alternate⟩ :: rest, kept, tame => by
      obtain ⟨⟨first, second⟩, later⟩ := List.forall_mem_cons.mp tame
      rw [choices]
      refine (asValue_kept (fragment_kept .value consequent first)).bind fun e here => ?_
      refine (asValue_kept (fragment_kept .value alternate second)).bind fun f there => ?_
      refine choices_kept _ rest ?_ later
      simpa only [Expr.loads, kept_append] using ⟨⟨kept, here⟩, there⟩
end

/-! Statements -/

theorem valueOf_kept {n : Node} (tame : Tame lax n) :
    Grants (fun e => Kept lax (e.loads false)) (valueOf n) :=
  asValue_kept (fragment_kept .value n tame)

theorem targetOf_kept {n : Node} (tame : Tame lax n) :
    Grants (fun p => Kept lax p.loads) (targetOf n) :=
  asPlace_kept n.kind (fragment_kept .target n tame)

theorem optionalValue_kept {e : Option Node} (tame : ∀ n ∈ e, Tame lax n) :
    Grants (fun e => Kept lax (Code.loadsInResult e)) (optionalValue e) := by
  cases e with
  | none => exact .pure kept_nil
  | some n => exact (valueOf_kept (tame n rfl)).bind fun _ kept => .pure kept

theorem optionalTarget_kept {e : Option Node} (tame : ∀ n ∈ e, Tame lax n) :
    Grants (fun p => Kept lax (Code.loadsInTarget p)) (optionalTarget e) := by
  cases e with
  | none => exact .pure kept_nil
  | some n => exact (targetOf_kept (tame n rfl)).bind fun _ kept => .pure kept

theorem loadsOf_assembleFunction (name : String) (parameters : List String) (isMethod : Bool)
    (statements : Block) (context : Context) :
    loadsOf (assembleFunction name parameters isMethod statements context).body =
      loadsOf statements := by
  obtain ⟨prologue, isBody, readies⟩ :=
    assembleFunction_body name parameters isMethod statements context
  rw [isBody, loadsOf, Stmt.loads, loadsOf_append, Code.loadsOf_eq_nil readies]
  simp [loadsOf]

theorem block_kept_of {statements : List Node}
    (each : ∀ declarations, Grants (fun b => Kept lax (loadsOf b)) (selected declarations statements)) :
    Grants (fun b => Kept lax (loadsOf b)) (block statements) := by
  refine (each true).bind fun b here => (each false).bind fun b' there => .pure ?_
  rw [loadsOf_append, kept_append]
  exact ⟨here, there⟩

/-- The members of a class found so far have their loads in order. -/
structure MembersKept (lax : Bool) (found : Members) : Prop where
  defaults : ∀ entry ∈ found.properties, Kept lax (entry.2.loads false)
  bodies : ∀ entry ∈ found.methods, Kept lax (loadsOf entry.2.body)

theorem MembersKept.loads {found : Members} (kept : MembersKept lax found) :
    Kept lax (Code.loadsInDefaults found.properties) ∧
      Kept lax (Code.loadsOfMethods found.methods) := by
  rw [Code.loadsOfMethods_eq_flatMap]
  constructor
  · intro l member
    obtain ⟨entry, found, inside⟩ := List.mem_flatMap.mp member
    exact kept.defaults entry found l inside
  · intro l member
    obtain ⟨entry, found, inside⟩ := List.mem_flatMap.mp member
    exact kept.bodies entry found l inside

theorem MembersKept.property {found : Members} (kept : MembersKept lax found) (name : String)
    {default : Expr} (added : Kept lax (default.loads false)) :
    MembersKept lax { found with properties := Assoc.set found.properties name default } := by
  refine ⟨fun entry member => ?_, kept.bodies⟩
  rcases Assoc.mem_set member with old | isNew
  · exact kept.defaults entry old
  · rw [isNew]
    exact added

theorem MembersKept.method {found : Members} (kept : MembersKept lax found) (name : String)
    {method : Function Stmt} (added : Kept lax (loadsOf method.body)) :
    MembersKept lax { found with methods := Assoc.set found.methods name method } := by
  refine ⟨kept.defaults, fun entry member => ?_⟩
  rcases Assoc.mem_set member with old | isNew
  · exact kept.bodies entry old
  · rw [isNew]
    exact added

theorem inBody_kept (parameters : List String) {statements : List Node}
    (inside : Grants (fun b => Kept lax (loadsOf b)) (block statements)) :
    Grants (fun result => Kept lax (loadsOf result.1))
      (inBody parameters (joined (selected true statements) (selected false statements))) :=
  (inBody_compiled parameters statements).imp fun _ compiled => inside.holds compiled

mutual
/-- The loads of a statement are in order. -/
theorem statement_kept : (n : Node) → Tame lax n →
    Grants (fun s => Kept lax s.loads) (statement n)
  | .echoStatement e, tame | .expressionStatement e, tame => by
      rw [statement]
      refine (valueOf_kept (tame.part (by simp [Node.parts]))).bind fun _ kept => .pure ?_
      simpa only [Stmt.loads] using kept
  | .inlineHtmlStatement html, _ => by
      rw [statement]
      exact .pure (by simp [Stmt.loads])
  | .returnStatement e, tame => by
      rw [statement]
      refine (optionalValue_kept fun n member => tame.part (by simpa [Node.parts] using member)).bind
        fun _ kept => .pure ?_
      simpa only [Stmt.loads] using kept
  | .ifStatement condition consequent alternate, tame => by
      rw [statement]
      refine (valueOf_kept (tame.part (by simp [Node.parts]))).bind fun _ tested => ?_
      refine (block_kept_of fun group => selected_kept group consequent fun s member =>
        tame.part (by simp [Node.parts, member])).bind fun _ first => ?_
      refine (block_kept_of fun group => selected_kept group alternate fun s member =>
        tame.part (by simp [Node.parts, member])).bind fun _ second => .pure ?_
      simpa only [Stmt.loads, kept_append] using ⟨⟨tested, first⟩, second⟩
  | .foreachStatement array key value statements, tame => by
      rw [statement]
      refine (valueOf_kept (tame.part (by simp [Node.parts]))).bind fun _ walked => ?_
      refine (optionalTarget_kept fun n member =>
        tame.part (by simp_all [Node.parts])).bind fun _ keyed => ?_
      refine (targetOf_kept (tame.part (by simp [Node.parts]))).bind fun _ valued => ?_
      refine (anything_granted _).bind fun _ _ => ?_
      refine (block_kept_of fun group => selected_kept group statements fun s member =>
        tame.part (by simp [Node.parts, member])).bind fun _ body => .pure ?_
      simpa only [Stmt.loads, kept_append] using ⟨⟨⟨walked, keyed⟩, valued⟩, body⟩
  | .functionStatement name parameters statements, tame => by
      rw [statement]
      refine (anything_granted _).bind fun ps _ => ?_
      refine (inBody_kept ps (block_kept_of fun group => selected_kept group statements
        fun s member => tame.part (by simp [Node.parts, member]))).bind
          fun result kept => .pure ?_
      rw [← loadsOf_assembleFunction name ps false] at kept
      exact kept
  | .classStatement className members, tame => by
      rw [statement]
      refine (valueOf_kept (tame.part (by simp [Node.parts]))).bind fun _ named => ?_
      have none : MembersKept lax ⟨[], []⟩ := ⟨by simp, by simp⟩
      refine (classMembers_kept members none fun n member =>
        tame.part (by simp [Node.parts, member])).bind fun found kept => .pure ?_
      obtain ⟨defaults, bodies⟩ := kept.loads
      simpa only [Stmt.loads, kept_append] using ⟨⟨named, defaults⟩, bodies⟩
  | .program .., _ | .methodDefinition .., _ | .propertyDefinition .., _ | .arrayIndex .., _
  | .arrayLiteral .., _ | .boolean .., _ | .expression .., _ | .float .., _
  | .functionCall .., _ | .integer .., _ | .keyValuePair .., _ | .list .., _
  | .methodCall .., _ | .newExpression .., _ | .objectProperty .., _ | .string .., _
  | .stringLiteral .., _ | .ternary .., _ | .unaryExpression .., _ | .variable .., _
  | .void, _ => .throw _

theorem selected_kept (declarations : Bool) : (nodes : List Node) → (∀ n ∈ nodes, Tame lax n) →
    Grants (fun b => Kept lax (loadsOf b)) (selected declarations nodes)
  | [], _ => by
      rw [selected]
      exact .pure (by simp [loadsOf])
  | n :: rest, tame => by
      obtain ⟨first, later⟩ := List.forall_mem_cons.mp tame
      rw [selected]
      split
      · refine (statement_kept n first).bind fun _ here => ?_
        refine (selected_kept declarations rest later).bind fun _ others => .pure ?_
        simpa only [loadsOf, kept_append] using ⟨here, others⟩
      · exact selected_kept declarations rest later

theorem classMembers_kept : (members : List Node) → {found : Members} → MembersKept lax found →
    (∀ n ∈ members, Tame lax n) → Grants (MembersKept lax) (classMembers found members)
  | [], _, kept, _ => by
      rw [classMembers]
      exact .pure kept
  | member :: rest, _, kept, tame => by
      obtain ⟨first, later⟩ := List.forall_mem_cons.mp tame
      cases member with
      | propertyDefinition target value =>
          cases target with
          | «variable» name _ =>
              rw [classMembers]
              refine (optionalValue_kept fun n member =>
                first.part (by simp_all [Node.parts])).bind fun default valued => ?_
              refine classMembers_kept rest (kept.property _ ?_) later
              cases default with
              | none => simp [Expr.loads]
              | some e => exact valued
          | _ => exact .throw _
      | methodDefinition name parameters statements =>
          cases name with
          | string name =>
              rw [classMembers]
              refine (anything_granted _).bind fun ps _ => ?_
              refine (inBody_kept ps (block_kept_of fun group => selected_kept group statements
                fun s member => first.part (by simp [Node.parts, member]))).bind
                  fun result inside => ?_
              rw [← loadsOf_assembleFunction name ps true] at inside
              exact classMembers_kept rest (kept.method _ inside) later
          | _ => exact .throw _
      | _ => exact .throw _
end

theorem block_kept (statements : List Node) (tame : ∀ n ∈ statements, Tame lax n) :
    Grants (fun b => Kept lax (loadsOf b)) (block statements) :=
  block_kept_of fun group => selected_kept group statements tame

end rules

/-- An open load in a compiled program stands directly as a key, and comes from an open key of the
tree. -/
theorem program_kept {t : Node} {p : Code.Program} (compiled : program t = .ok p) :
    ∀ l ∈ loadsOf p.statements, l.place.isOpen = true → l.isKey = true ∧ ¬ t.KeysClosed := by
  obtain ⟨statements, rfl, ran⟩ := program_compiled compiled
  have bare : loadsOf (Code.declarations p.locals) = [] := by
    unfold Code.declarations
    split <;> rfl
  have inside : ∀ lax, Tame lax (.program statements) → Kept lax (loadsOf p.statements) := by
    intro lax tame
    rw [Code.Program.statements, loadsOf_append, bare]
    exact (block_kept statements fun s member => tame.part (by simpa [Node.parts])).holds ran
  intro l member isOpen
  refine ⟨(inside true nofun l member isOpen).2, fun closed => ?_⟩
  cases (inside false (fun _ => closed) l member isOpen).1

end Compile

/-! Evaluation -/

/-- The fault of reading what can only be written to. -/
def Fault.isMisread : Fault → Bool
  | .script .emptyIndexRead | .script .invalidListUsage => true
  | _ => false

namespace Location

/-- The location can only be written to. -/
def isOpen : Location → Bool
  | .element _ none | .list _ => true
  | _ => false

/-- However the run ends, it is not by a misreading. -/
abbrev NoMisread {α : Type} : EStateM.Result Fault Machine α → Prop :=
  Run.Ends (fun _ _ => True) (fun f _ => f.isMisread = false)

theorem currentScope_noMisread (m : Machine) : NoMisread (currentScope.run m) := by
  rw [currentScope, Run.run_get_bind]
  split
  · trivial
  · exact rfl

theorem variableSlot_noMisread (name : String) (m : Machine) :
    NoMisread ((variableSlot name).run m) := by
  refine (currentScope_noMisread m).bind fun scope m' _ => ?_
  split <;> trivial

theorem textOffset_noMisread (text : String) (key : Key) (m : Machine) :
    NoMisread ((textOffset text key).run m) := by
  cases key with
  | string _ => exact rfl
  | integer offset =>
      rw [textOffset]
      generalize (if offset < 0 then text.toUTF8.size + offset.toInt else offset.toInt) = position
      split
      · split <;> trivial
      · trivial

/-- Reading a location that is not open is no misreading, whatever else stops it. -/
theorem get_closed {l : Location} (isClosed : l.isOpen = false) (m : Machine) :
    NoMisread (l.get.run m) := by
  cases l with
  | «variable» name => exact (variableSlot_noMisread name m).bind fun _ _ _ => trivial
  | detached s => trivial
  | element container key =>
      cases key with
      | none => cases isClosed
      | some key =>
          cases container with
          | string text => exact textOffset_noMisread text key m
          | _ => trivial
  | list _ => cases isClosed

theorem get_open {l : Location} (isOpen : l.isOpen = true) (m : Machine) :
    ∃ f, l.get.run m = .error f m ∧ f.isMisread = true := by
  cases l with
  | element container key =>
      cases key with
      | none => exact ⟨_, rfl, rfl⟩
      | some _ => cases isOpen
  | list _ => exact ⟨_, rfl, rfl⟩
  | _ => cases isOpen

end Location

/-- A place resolves to a location that is open where the place is. -/
theorem evalPlace_isOpen (user : UserCall) (frame : Frame) (use : Use) (p : Code.Place)
    (m : Machine) :
    Run.Ends (fun l _ => l.isOpen = p.isOpen) (fun _ _ => True)
      ((evalPlace user frame use p).run m) := by
  have anyhow {α : Type} (c : Run α) (m : Machine) :
      Run.Ends (fun _ _ => True) (fun _ _ => True) (c.run m) := by cases c.run m <;> trivial
  cases p with
  | «variable» name =>
      rw [evalPlace]
      refine (anyhow _ m).bind fun _ m' _ => (anyhow _ m').bind fun scope m' _ => ?_
      split <;> exact rfl
  | element base key =>
      rw [evalPlace]
      refine (anyhow _ m).bind fun container m' _ => ?_
      cases key with
      | none =>
          rw [evalKey]
          exact rfl
      | some e =>
          rw [evalKey]
          refine Run.Ends.bind (Q := fun key _ => key.isSome = true) ?_ fun key _ isSome => ?_
          · refine (anyhow _ m').bind fun v _ _ => ?_
            split
            · exact rfl
            · trivial
          · cases key with
            | none => cases isSome
            | some _ => exact rfl
  | nullReference =>
      rw [evalPlace]
      exact rfl
  | list places =>
      rw [evalPlace]
      exact (anyhow _ m).bind fun _ _ _ => rfl

namespace Compile

open Code (Load loadsOf)

/-- In a compiled program only a key can be loaded from a new element or a list, and only where the
tree has such a key. Every other load, once it has found its location, reads it without a complaint
that it can only be written to; a load from a new element or a list never reads anything. -/
theorem open_loads_are_keys {t : Node} {p : Code.Program} (compiled : program t = .ok p) :
    ∀ l ∈ loadsOf p.statements,
      (l.place.isOpen = true → l.isKey = true ∧ ¬ t.KeysClosed) ∧
      ∀ user frame m location m', (evalPlace user frame .read l.place).run m = .ok location m' →
        ((∃ f m'', (evalExpr user frame (.load l.place)).run m = .error f m'' ∧
          f.isMisread = true) ↔ l.place.isOpen = true) := by
  intro l member
  refine ⟨program_kept compiled l member, fun user frame m location m' found => ?_⟩
  have same : location.isOpen = l.place.isOpen := by
    have opens := evalPlace_isOpen user frame .read l.place m
    rwa [found] at opens
  have reads : (evalExpr user frame (.load l.place)).run m = location.get.run m' := by
    rw [evalExpr]
    exact Run.run_bind found
  rw [reads, ← same]
  constructor
  · rintro ⟨f, m'', failed, misread⟩
    cases opened : location.isOpen with
    | true => rfl
    | false =>
        have ends := Location.get_closed opened m'
        rw [failed] at ends
        have fine : f.isMisread = false := ends
        rw [misread] at fine
        cases fine
  · intro isOpen
    obtain ⟨f, failed, misread⟩ := Location.get_open isOpen m'
    exact ⟨f, m', failed, misread⟩

/-- A program without open keys: it assigns to an element of a new element. -/
theorem open_loads_are_keys_assigned :
    let t : Node := .program [.expressionStatement (.expression
      (.arrayIndex (.variable "a" false) [none, some (.variable "b" false)] false)
      [⟨"=", .integer 1⟩])]
    t.KeysClosed ∧ ∃ p, program t = .ok p ∧ loadsOf p.statements = [⟨.variable "b", true⟩] ∧
      ∀ l ∈ loadsOf p.statements, l.place.isOpen = false := by
  intro t
  have leaf : ∀ {n : Node}, n.parts = [] → n.keys = [] → n.KeysClosed := fun parts keys =>
    .node (by simp [keys]) (by simp [parts])
  have closed : t.KeysClosed := by
    refine .node (by simp [t, Node.keys]) (List.forall_mem_singleton.mpr ?_)
    refine .node (by simp [Node.keys]) (List.forall_mem_singleton.mpr ?_)
    refine .node (by simp [Node.keys]) (List.forall_mem_cons.mpr ⟨?_, ?_⟩)
    · refine .node (by simp [Node.keys, Node.isOpen]) ?_
      exact List.forall_mem_cons.mpr ⟨leaf rfl rfl, List.forall_mem_singleton.mpr (leaf rfl rfl)⟩
    · exact List.forall_mem_singleton.mpr (leaf rfl rfl)
  obtain ⟨p, compiled, loads⟩ : ∃ p, program t = .ok p ∧
      loadsOf p.statements = [⟨.variable "b", true⟩] := ⟨_, rfl, rfl⟩
  refine ⟨closed, p, compiled, loads, fun l member => ?_⟩
  have inOrder := (open_loads_are_keys compiled l member).1
  exact Bool.eq_false_iff.mpr fun isOpen => (inOrder isOpen).2 closed

/-- A key that is a new element of an array is compiled to a load from it, and the program stops
when it comes to that load; so does one with a list for a key. -/
theorem open_key_is_loaded :
    let reading (key : Node) : Node :=
      .program [.returnStatement (some (.arrayIndex (.variable "a" false) [some key] false))]
    let stops (key : Node) (e : ScriptError) : Prop :=
      ∃ p, program (reading key) = .ok p ∧
        (∃ l ∈ loadsOf p.statements, l.place.isOpen = true) ∧
        ((Session.create .default false [] .unlimited .unlimited).evaluate (reading key)).1 =
          .error (.runtime (.script e))
    stops (.arrayIndex (.variable "b" false) [none] false) .emptyIndexRead ∧
      stops (.list [.variable "x" false]) .invalidListUsage := by
  intro reading stops
  constructor
  · refine ⟨_, rfl, ⟨⟨.element (.value (.load (.variable "b"))) none, true⟩, ?_, rfl⟩, rfl⟩
    exact List.mem_cons_of_mem _ (List.mem_cons_of_mem _ List.mem_cons_self)
  · refine ⟨_, rfl, ⟨⟨.list [.variable "x"], true⟩, ?_, rfl⟩, rfl⟩
    exact List.mem_cons_of_mem _ (List.mem_cons_of_mem _ List.mem_cons_self)

end Compile
end TreeScript
