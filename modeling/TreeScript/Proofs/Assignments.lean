import TreeScript.Compile.Expression
import TreeScript.Proofs.Compile.Accepted
import TreeScript.Proofs.Operands
import TreeScript.Proofs.Routes

set_option autoImplicit false

/- Assignments to nested elements under literal keys. The target is resolved first, to the container
it will be written in; then the source is evaluated, whatever it does; then a copy of its value is
written in that container. So the assignment shows where the variable still leads there. -/
namespace TreeScript

open Code (Expr Place Base)
open Store (Leads Closed)

/-- The value of a node that stands for itself. -/
def Node.literal : Node → Option Value
  | .integer number => some (.integer number)
  | .float number => some (.float number)
  | .boolean value => some (.boolean value)
  | .string text => some (if text == "null" then .null else .string text)
  | .stringLiteral text => some (.string (String.ofList (Compile.unescape text.toList)))
  | _ => none

/-- The key that a literal is. -/
def Node.literalKey (n : Node) : Option Key := n.literal.bind Key.ofValue

/-- Code for a key that is the same whenever it is evaluated. -/
def Denotes (code : Option Expr) (key : Key) : Prop :=
  ∃ e v, code = some e ∧ (∀ user frame, evalExpr user frame e = pure v) ∧ Key.ofValue v = some key

/-! Compiling -/

namespace Compile

theorem fragment_literal (mode : Mode) {n : Node} {v : Value} (literal : n.literal = some v) :
    ∃ e, fragment mode n = pure (.value e) ∧ ∀ user frame, evalExpr user frame e = pure v := by
  cases n with
  | integer number =>
      cases literal
      exact ⟨.integer number, by rw [fragment], fun _ _ => by rw [evalExpr]⟩
  | float number =>
      cases literal
      exact ⟨.float number, by rw [fragment], fun _ _ => by rw [evalExpr]⟩
  | boolean value =>
      cases literal
      exact ⟨.boolean value, by rw [fragment], fun _ _ => by rw [evalExpr]⟩
  | string text =>
      cases literal
      refine ⟨bareWord text, by rw [fragment], fun _ _ => ?_⟩
      rw [bareWord]
      split <;> rw [evalExpr]
  | stringLiteral text =>
      cases literal
      exact ⟨_, by rw [fragment], fun _ _ => by rw [evalExpr]⟩
  | _ => cases literal

theorem indexKeys_literal (mode : Mode) (nodes : List Node) {keys : List Key}
    (literal : nodes.map Node.literalKey = keys.map some) :
    ∃ codes, indexKeys mode (nodes.map some) = pure codes ∧ List.Forall₂ Denotes codes keys := by
  induction nodes generalizing keys with
  | nil =>
      cases keys with
      | nil => exact ⟨[], by rw [List.map_nil, indexKeys], .nil⟩
      | cons key keys => cases literal
  | cons n rest ih =>
      cases keys with
      | nil => cases literal
      | cons key keys =>
          simp only [List.map_cons, List.cons.injEq] at literal
          obtain ⟨v, isLiteral, isKey⟩ := Option.bind_eq_some_iff.mp literal.1
          obtain ⟨e, isValue, evaluates⟩ := fragment_literal .location isLiteral
          obtain ⟨codes, compiled, denote⟩ := ih literal.2
          refine ⟨some e :: codes, ?_, .cons ⟨e, v, rfl, evaluates, isKey⟩ denote⟩
          rw [List.map_cons, indexKeys, isValue, compiled]
          rfl

/-- The node of `$x[k1]…[kn]`. -/
def elementOf (x : String) (keys : List Node) : Node :=
  .arrayIndex (.variable x false) (keys.map some) false

/-- The node of `$x[k1]…[kn] = source`. -/
def elementAssignment (x : String) (keys : List Node) (source : Node) : Node :=
  .expression (elementOf x keys) [⟨"=", source⟩]

theorem codes_ne_nil {nodes : List Node} {codes : List (Option Expr)} {keys : List Key}
    (literal : nodes.map Node.literalKey = keys.map some) (filled : nodes ≠ [])
    (denote : List.Forall₂ Denotes codes keys) : codes ≠ [] := by
  rintro rfl
  cases denote
  exact filled (List.map_eq_nil_iff.mp literal)

/-- The access is compiled as a target, which declares the variable. -/
theorem fragment_target (x : String) {nodes : List Node} {keys : List Key}
    (literal : nodes.map Node.literalKey = keys.map some) (filled : nodes ≠ []) :
    ∃ codes target, List.Forall₂ Denotes codes keys ∧
      targetPlace (.implied (.variable (variableName x))) codes = some target ∧
      fragment .target (elementOf x nodes) =
        (do declare (variableName x); pure (.place target)) := by
  obtain ⟨codes, isKeys, denote⟩ := indexKeys_literal .target nodes literal
  obtain ⟨target, isTarget⟩ := Option.isSome_iff_exists.mp
    (targetPlace_isSome (.implied (.variable (variableName x))) (codes_ne_nil literal filled denote))
  refine ⟨codes, target, denote, isTarget, ?_⟩
  have asked : (!(nodes.map some).isEmpty) = true := by simpa using filled
  rw [elementOf, fragment, fragment, asked, isKeys]
  funext c
  change accessFragment .target .arrayIndex (.place (.variable (variableName x))) codes _ = _
  simp only [accessFragment, Fragment.toBase, isTarget]
  rfl

/-- As a value it is compiled to a load, which declares nothing. -/
theorem valueOf_element (x : String) {nodes : List Node} {keys : List Key}
    (literal : nodes.map Node.literalKey = keys.map some) (filled : nodes ≠ []) :
    ∃ codes place, List.Forall₂ Denotes codes keys ∧
      readPlace (.load (.variable (variableName x))) codes = some place ∧
      valueOf (elementOf x nodes) = pure (.load place) := by
  obtain ⟨codes, isKeys, denote⟩ := indexKeys_literal .value nodes literal
  obtain ⟨place, isPlace⟩ := Option.isSome_iff_exists.mp
    (readPlace_isSome (.load (.variable (variableName x))) (codes_ne_nil literal filled denote))
  refine ⟨codes, place, denote, isPlace, ?_⟩
  have asked : (!(nodes.map some).isEmpty) = true := by simpa using filled
  rw [valueOf, elementOf, fragment, baseMode, fragment, asked, isKeys]
  funext c
  change (asValue (accessFragment .value .arrayIndex (.value (.load (.variable (variableName x))))
    codes)) c = _
  simp only [accessFragment, Fragment.toExpr, isPlace]
  rfl

theorem valueOf_elementAssignment {x : String} {nodes : List Node} {source : Node} {keys : List Key}
    {c c₁ : Context} {assignment : Expr} (filled : nodes ≠ [])
    (literal : nodes.map Node.literalKey = keys.map some) (byValue : source.isReference = false)
    (compiled : valueOf (elementAssignment x nodes source) c = .ok (assignment, c₁)) :
    ∃ codes target e, List.Forall₂ Denotes codes keys ∧
      targetPlace (.implied (.variable (variableName x))) codes = some target ∧
      assignment = .assign target (.value e) := by
  obtain ⟨codes, target, denote, isTarget, isPlace⟩ := fragment_target x literal filled
  have isAssign : BinaryToken.ofSymbol "=" = some .assign := by decide
  have steps : valueOf (elementAssignment x nodes source) = (do
      declare (variableName x)
      let e ← valueOf source
      pure (.assign target (.value e))) := by
    rw [valueOf, elementAssignment, fragment, isPlace]
    simp only [asValue, asPlace, valueOf, beq_self_eq_true, if_true, operations, isAssign, byValue,
      Bool.and_false, Bool.false_eq_true, if_false, bind_assoc, pure_bind, Fragment.toExpr]
  rw [steps] at compiled
  obtain ⟨_, _, -, compiled⟩ := bind_eq_ok.mp compiled
  obtain ⟨e, _, -, compiled⟩ := bind_eq_ok.mp compiled
  cases compiled
  exact ⟨codes, target, e, denote, isTarget, rfl⟩

end Compile

/-! Evaluating -/

section evaluation

variable {user : UserCall} {frame : Frame} {m m' : Machine}

theorem run_evalKey {code : Option Expr} {key : Key} (denotes : Denotes code key) :
    (evalKey user frame code).run m = .ok (some key) m := by
  obtain ⟨e, v, rfl, evaluates, isKey⟩ := denotes
  have constant : (pure v : Run Value).run m = .ok v m := rfl
  rw [evalKey, evaluates, Run.run_bind constant, isKey]
  rfl

/-- An element of what a place holds is the place resolved by one key. -/
theorem resolve_of_evalElement {use : Use} {p : Place} {code : Option Expr} {key : Key}
    {target : Location} (denotes : Denotes code key)
    (ran : (evalPlace user frame use (.element (.implied p) code)).run m = .ok target m') :
    ∃ l m₁, (evalPlace user frame use p).run m = .ok l m₁ ∧
      (l.resolve [key]).run m₁ = .ok target m' := by
  rw [evalPlace] at ran
  obtain ⟨container, m₂, implied, ran⟩ := Run.of_run_bind ran
  rw [Run.run_bind (run_evalKey denotes)] at ran
  cases ran
  rw [evalBase] at implied
  obtain ⟨l, m₁, located, implied⟩ := Run.of_run_bind implied
  refine ⟨l, m₁, located, ?_⟩
  rw [Location.resolve, Run.run_bind implied]
  rfl

/-- A target is the variable resolved by its keys. -/
theorem resolve_of_evalPlace {use : Use} {codes : List (Option Expr)} {keys : List Key}
    (denote : List.Forall₂ Denotes codes keys) {p q : Place} {target : Location}
    (isTarget : Compile.targetPlace (.implied p) codes = some q)
    (ran : (evalPlace user frame use q).run m = .ok target m') :
    ∃ l m₁, (evalPlace user frame use p).run m = .ok l m₁ ∧
      (l.resolve keys).run m₁ = .ok target m' := by
  induction denote generalizing p with
  | nil => cases isTarget
  | @cons code key codes keys denotes rest ih =>
      cases rest with
      | nil =>
          cases isTarget
          exact resolve_of_evalElement denotes ran
      | cons denotes' rest' =>
          obtain ⟨l', m₂, located, resolved⟩ := ih isTarget
          obtain ⟨l, m₁, located, first⟩ := resolve_of_evalElement denotes located
          refine ⟨l, m₁, located, ?_⟩
          obtain ⟨container, m₃, implied, first⟩ := Run.of_run_bind first
          cases first
          rw [Location.resolve, Run.run_bind implied]
          exact resolved

/-- A load follows the keys from what its container is read from. -/
theorem run_load {codes : List (Option Expr)} {keys : List Key} {container : Expr} {q : Place}
    {s u : SlotId} {passed : List SlotId} (denote : List.Forall₂ Denotes codes keys)
    (isPlace : Compile.readPlace container codes = some q)
    (evaluated : (evalExpr user frame container).run m = .ok (m.store.read s) m)
    (leads : Leads m.store s keys passed u) :
    (evalExpr user frame (.load q)).run m = .ok (m.store.read u) m := by
  induction denote generalizing container s passed with
  | nil => cases isPlace
  | @cons code key codes keys denotes rest ih =>
      cases leads with
      | @step _ t _ _ _ passed found further =>
          obtain ⟨spot, isSpot, isSlot⟩ := Option.bind_eq_some_iff.mp found
          have loaded : (evalExpr user frame (.load (.element (.value container) code))).run m =
              .ok (m.store.read t) m := by
            have place : (evalPlace user frame .read (.element (.value container) code)).run m =
                .ok (.element (m.store.read s) (some key)) m := by
              rw [evalPlace, evalBase, Run.run_bind evaluated, Run.run_bind (run_evalKey denotes)]
              rfl
            rw [evalExpr, Run.run_bind place]
            exact Location.run_get (.element isSpot) isSlot
          cases rest with
          | nil =>
              cases isPlace
              cases further
              exact loaded
          | cons denotes' rest' => exact ih isPlace loaded further

theorem run_variable {name : String} {s : SlotId} (use : Use)
    (bound : (Location.variable name).At m (.slot s)) :
    (evalPlace user frame use (.variable name)).run m = .ok (.variable name) m := by
  cases bound with
  | @named _ _ scope outer isScope bound =>
      have noted : (Run.note (.lookup use name)).run m = .ok () m := rfl
      rw [evalPlace, Run.run_bind noted, Location.ofVariable,
        Run.run_bind (Location.run_currentScope isScope), Assoc.contains, bound, Option.isSome_some,
        if_pos rfl]
      rfl

/-- A variable is in a slot, its own or, if it is not declared, a detached one. -/
theorem at_of_evalVariable {name : String} {use : Use} {l : Location}
    (ran : (evalPlace user frame use (.variable name)).run m = .ok l m') :
    ∃ s, l.At m' (.slot s) := by
  rw [evalPlace] at ran
  obtain ⟨_, _, noted, ran⟩ := Run.of_run_bind ran
  cases noted
  rw [Location.ofVariable] at ran
  obtain ⟨scope, _, isScope, ran⟩ := Run.of_run_bind ran
  cases scopes : m.scopes with
  | nil =>
      rw [currentScope, Run.run_get_bind, scopes] at isScope
      cases isScope
  | cons innermost outer =>
      rw [Location.run_currentScope scopes] at isScope
      cases isScope
      split at ran
      · next declared =>
          cases ran
          obtain ⟨s, bound⟩ := Option.isSome_iff_exists.mp declared
          exact ⟨s, .named scopes bound⟩
      · cases ran
        exact ⟨_, .detached _⟩

end evaluation

/-- The frame suits what the evaluation of a place leaves, and the place is there. -/
theorem Frame.Suits.evalPlace {levels : Nat} {frame : Frame} {m m' : Machine} {use : Use}
    {p : Place} {l : Location} (suits : frame.Suits m)
    (ran : (evalPlace (invoke levels) frame use p).run m = .ok l m') :
    frame.Suits m' ∧ ∀ h ∈ l.handles, h.Within m'.store.extent :=
  (suits.evaluation (evalPlace_uniform frame use p)
    (Discipline.evalPlace_meets (Discipline.invoke_serves levels) use p suits.knownFrame
      fun _ _ => trivial) ran).2

/-- An assignment `$x[k1]…[kn] = source` takes effect where its variable still leads to the container
that its target was resolved to: once the source is evaluated, and unless the slot that is assigned
is one on the way, loading `$x[k1]…[kn]` gives what the assignment gave, whatever the source did. The
container is the one the variable led to before the source was evaluated. -/
theorem assignment_takes_effect (x : String) (front : List Node) (last source : Node)
    (keys : List Key) (key : Key) (c c₁ c₂ c₃ : Compile.Context) (assignment load : Expr)
    (levels : Nat) (frame : Frame) (m m' : Machine) (w : Value)
    (literal : front.map Node.literalKey = keys.map some) (literalLast : last.literalKey = some key)
    (byValue : source.isReference = false)
    (compiled : Compile.valueOf (Compile.elementAssignment x (front ++ [last]) source) c =
      .ok (assignment, c₁))
    (compiledLoad : Compile.valueOf (Compile.elementOf x (front ++ [last])) c₂ = .ok (load, c₃))
    (suits : frame.Suits m) (ran : (evalExpr (invoke levels) frame assignment).run m = .ok w m') :
    ∃ target e container m₁ v m₂,
      assignment = .assign target (.value e) ∧
      (evalPlace (invoke levels) frame .write target).run m =
        .ok (.element container (some key)) m₁ ∧
      (evalExpr (invoke levels) (frame.holding container.handles) e).run m₁ = .ok v m₂ ∧
      (∀ s, (Location.variable (Compile.variableName x)).At m (.slot s) →
        ∃ passed u, Leads m₁.store s keys passed u ∧ m₁.store.read u = container) ∧
      ∀ s passed u, (Location.variable (Compile.variableName x)).At m₂ (.slot s) →
        Leads m₂.store s keys passed u → m₂.store.read u = container →
        (∀ final, m'.store.slotIn? container key = some final → final ∉ passed ++ [u]) →
        (evalExpr (invoke levels) frame load).run m' = .ok w m' := by
  have literals : (front ++ [last]).map Node.literalKey = (keys ++ [key]).map some := by
    simp [literal, literalLast]
  have filled : front ++ [last] ≠ [] := by simp
  obtain ⟨codes, target, e, denote, isTarget, rfl⟩ :=
    Compile.valueOf_elementAssignment filled literals byValue compiled
  obtain ⟨codes', place, denote', isPlace, isLoad⟩ := Compile.valueOf_element x literals filled
  rw [isLoad] at compiledLoad
  cases compiledLoad
  rw [evalExpr] at ran
  obtain ⟨l, m₁, located, ran⟩ := Run.of_run_bind ran
  rw [assignFrom] at ran
  obtain ⟨v, m₂, evaluated, assigned⟩ := Run.of_run_bind ran
  obtain ⟨suits₁, inside⟩ := suits.evalPlace located
  obtain ⟨start, m₀, begun, resolved⟩ := resolve_of_evalPlace denote isTarget located
  obtain ⟨suits₀, inside₀⟩ := suits.evalPlace begun
  obtain ⟨s₀, at₀⟩ := at_of_evalVariable begun
  have route : ∀ s, start.At m₀ (.slot s) → ∃ passed u,
      l = .element (m₁.store.read u) (some key) ∧ Leads m₁.store s keys passed u := by
    intro s found
    obtain ⟨passed, u, isElement, -, resolution⟩ := Location.resolution_of_resolve keys key found
      suits₀.sound.owned.closed (found.inside suits₀.sound.bound inside₀) resolved
    obtain ⟨_, isSlot, leads⟩ := resolution.route
    cases isSlot
    exact ⟨passed, u, isElement, leads⟩
  obtain ⟨passed₀, u₀, rfl, leads₀⟩ := route s₀ at₀
  have suits₂ := (suits₁.evalExpr (suits₁.holding inside) evaluated).2.1
  refine ⟨target, e, m₁.store.read u₀, m₁, v, m₂, rfl, located, evaluated, ?_, ?_⟩
  · intro s found
    have declared : (evalPlace (invoke levels) frame .write
        (.variable (Compile.variableName x))).run m = .ok _ m := run_variable .write found
    rw [begun] at declared
    cases declared
    obtain ⟨passed, u, isElement, leads⟩ := route s found
    exact ⟨passed, u, leads, (Location.element.inj isElement).1.symm⟩
  · intro s passed u found leads reads apart
    rw [← reads] at assigned apart
    obtain ⟨st, final, spot, -, rfl, isSpot, puts, effect⟩ :=
      Location.run_readAt_assigned found suits₂.sound.owned.closed leads assigned
    have isFinal : (st.put spot w).slotIn? (m₂.store.read u) key = some final := by
      rw [Store.slotIn?_of_spot? isSpot]
      exact puts.slot
    obtain ⟨shown, -⟩ := effect (apart final isFinal)
    have found' := found.store (st.put spot w)
    have variable' : (evalExpr (invoke levels) frame
        (.load (.variable (Compile.variableName x)))).run { m₂ with store := st.put spot w } =
          .ok ((st.put spot w).read s) { m₂ with store := st.put spot w } := by
      rw [evalExpr, Run.run_bind (run_variable .read found')]
      exact Location.run_get found' rfl
    have loaded := run_load denote' isPlace variable' shown
    rw [puts.value] at loaded
    exact loaded

/-- The machine of a program whose variables `x` and `y` are declared. -/
def declaredXY : Machine :=
  Run.left ((defineVariables ["x", "y"]).run (.idle [] (.empty rootPath) .empty))

theorem declaredXY_suits : programFrame.Suits declaredXY := by
  have empty : programFrame.Suits (.idle [] (.empty rootPath) .empty) := {
    sound := ⟨Store.owned_empty, by simp [Machine.idle],
      by simp [Machine.idle, Namespace.empty], by simp [Machine.idle]⟩
    scopes := by simp [Machine.idle]
    inside := by simp [programFrame]
    arguments := by simp [programFrame]
    receiver := by simp [programFrame]
    loops := by simp [Machine.idle] }
  exact (@Frame.Suits.evaluation _ _ _ 0 _ (fun _ => defineVariables ["x", "y"]) _ _ empty
    (defineVariables_uniform _) (Discipline.defineVariables_meets _) rfl).2.1

/-- The code of `$x['a']['b'] = ($y = 5)`. -/
def assignsElsewhere : Expr :=
  .assign (.element (.implied (.element (.implied (.variable "x")) (some (.string "a"))))
    (some (.string "b"))) (.value (.assign (.variable "y") (.value (.integer 5))))

/-- The code of `$x['a']['b']`. -/
def loadsNested : Expr :=
  .load (.element (.value (.load (.element (.value (.load (.variable "x")))
    (some (.string "a"))))) (some (.string "b")))

/-- A source that assigns another variable does not get in the way. -/
theorem assignment_takes_effect_nested :
    ∃ w m', (evalExpr (invoke 1) programFrame assignsElsewhere).run declaredXY = .ok w m' ∧
      (evalExpr (invoke 1) programFrame loadsNested).run m' = .ok w m' := by
  have ends : Run.Ends (fun _ m' => m'.store.slotIn? (.array ⟨1⟩) (.string "b") = some ⟨3⟩)
      (fun _ _ => False) ((evalExpr (invoke 1) programFrame assignsElsewhere).run declaredXY) := by
    decide +kernel
  have amid : Run.Ends (fun l m₁ => l.handles = [.array ⟨1⟩] ∧ Run.Ends (fun _ m₂ =>
        m₂.scopes = [[("x", ⟨0⟩), ("y", ⟨1⟩)]] ∧ (m₂.store.read ⟨0⟩).handles = [.array ⟨0⟩] ∧
        (m₂.store.array ⟨0⟩).slot? (.string "a") = some ⟨2⟩ ∧
        (m₂.store.read ⟨2⟩).handles = [.array ⟨1⟩]) (fun _ _ => False)
          ((evalExpr (invoke 1) (programFrame.holding l.handles)
            (.assign (.variable "y") (.value (.integer 5)))).run m₁)) (fun _ _ => False)
      ((evalPlace (invoke 1) programFrame .write (.element (.implied (.element
        (.implied (.variable "x")) (some (.string "a")))) (some (.string "b")))).run
          declaredXY) := by
    decide +kernel
  cases ran : (evalExpr (invoke 1) programFrame assignsElsewhere).run declaredXY with
  | error f m' =>
      rw [ran] at ends
      exact ends.elim
  | ok w m' =>
      rw [ran] at ends
      obtain ⟨target, e, container, m₁, v, m₂, isAssign, located, evaluated, -, effect⟩ :=
        assignment_takes_effect "x" [.stringLiteral "a"] (.stringLiteral "b")
          (.expression (.variable "y" false) [⟨"=", .integer 5⟩]) [.string "a"] (.string "b")
          ⟨[], 0⟩ _ ⟨[], 0⟩ _ assignsElsewhere loadsNested 1 programFrame declaredXY m' w rfl rfl
          rfl rfl rfl declaredXY_suits ran
      cases isAssign
      rw [located] at amid
      obtain ⟨isContainer, amid⟩ := amid
      obtain rfl := Value.eq_of_handles isContainer
      rw [Location.handles, evaluated] at amid
      obtain ⟨scopes, first, slot, second⟩ := amid
      have found : m₂.store.slotIn? (m₂.store.read ⟨0⟩) (.string "a") = some ⟨2⟩ := by
        rw [Value.eq_of_handles first]
        exact slot
      refine ⟨w, m', rfl, effect ⟨0⟩ [⟨0⟩] ⟨2⟩ (.named scopes rfl) (.step found (.here _))
        (Value.eq_of_handles second) fun final isFinal => ?_⟩
      obtain rfl := Option.some.inj (ends.symm.trans isFinal)
      decide

/-- An assignment to an element whose source assigns the variable itself: the element goes into the
array that was in the variable, and is not there when it is loaded. -/
theorem assignment_lost :
    ∃ assignment load c c' m',
      Compile.valueOf (Compile.elementAssignment "x" [.stringLiteral "k"]
        (.expression (.variable "x" false) [⟨"=", .integer 7⟩])) ⟨[], 0⟩ = .ok (assignment, c) ∧
      Compile.valueOf (Compile.elementOf "x" [.stringLiteral "k"]) c = .ok (load, c') ∧
      (Location.variable "x").At declaredXY (.slot ⟨0⟩) ∧ declaredXY.store.read ⟨0⟩ = .null ∧
      (evalExpr (invoke 1) programFrame assignment).run declaredXY = .ok (.integer 7) m' ∧
      (evalExpr (invoke 1) programFrame load).run m' = .ok .null m' := by
  exact ⟨_, _, _, _, _, rfl, rfl, .named rfl rfl, rfl, rfl, rfl⟩

end TreeScript
