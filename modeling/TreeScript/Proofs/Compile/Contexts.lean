import TreeScript.Proofs.Compile.Hoisting

set_option autoImplicit false

/- What a node compiles to does not depend on where in a body it stands: elsewhere its loops have
other numbers, and that is all. So the code of statements that follow others is, but for these
numbers, the code of a program of their own. -/
namespace TreeScript

namespace Code

mutual
/-- The statement without the numbers of its loops. -/
def Stmt.unnumbered : Stmt → Stmt
  | .ifElse condition consequent alternate =>
      .ifElse condition (unnumberedAll consequent) (unnumberedAll alternate)
  | .foreach _ array key value byReference body =>
      .foreach 0 array key value byReference (unnumberedAll body)
  | .scoped body => .scoped (unnumberedAll body)
  | s => s

def unnumberedAll : Block → Block
  | [] => []
  | s :: rest => s.unnumbered :: unnumberedAll rest
end

/-- The code is the same but for the numbers of its loops. -/
def SameCode (b b' : Block) : Prop := unnumberedAll b = unnumberedAll b'

theorem unnumberedAll_append (b b' : Block) :
    unnumberedAll (b ++ b') = unnumberedAll b ++ unnumberedAll b' := by
  induction b with
  | nil => rfl
  | cons s rest ih => rw [List.cons_append, unnumberedAll, unnumberedAll, ih, List.cons_append]

end Code

namespace Compile

open Code (Expr Place Stmt Block SameCode unnumberedAll unnumberedAll_append)

section rules

variable {α β : Type} {R : α → α → Prop} {S : β → β → Prop} {m m' : CompileM α}

/-- Two ends of compiling, from two contexts: the same error, or results that are alike after the
same locals have been added. -/
inductive EndAlike (R : α → α → Prop) (c c' : Context) :
    Except CompileError (α × Context) → Except CompileError (α × Context) → Prop
  | error (e : CompileError) : EndAlike R c c' (.error e) (.error e)
  | ok {a a' : α} {d d' : Context} (added : List String)
      (locals : d.locals = added.foldl addLocal c.locals)
      (locals' : d'.locals = added.foldl addLocal c'.locals) (results : R a a') :
      EndAlike R c c' (.ok (a, d)) (.ok (a', d'))

/-- Two parts of the compiler do alike in any two contexts. -/
def Matches (R : α → α → Prop) (m m' : CompileM α) : Prop := ∀ c c', EndAlike R c c' (m c) (m' c')

/-- The results of a part of the compiler are the same in every context. -/
abbrev Steady (m : CompileM α) : Prop := Matches Eq m m

theorem Matches.pure {a a' : α} (results : R a a') : Matches R (Pure.pure a) (Pure.pure a') :=
  fun _ _ => .ok [] rfl rfl results

theorem Matches.throw (e : CompileError) : Matches R (throw e) (throw e) := fun _ _ => .error e

theorem Matches.bind {next next' : α → CompileM β} (first : Matches R m m')
    (later : ∀ a a', R a a' → Matches S (next a) (next' a')) :
    Matches S (m >>= next) (m' >>= next') := by
  intro c c'
  have steps : (m >>= next) c = (m c >>= fun (a, c) => next a c) := rfl
  have steps' : (m' >>= next') c' = (m' c' >>= fun (a, c) => next' a c) := rfl
  rw [steps, steps']
  have ended := first c c'
  generalize m c = result, m' c' = result' at ended
  cases ended with
  | error e => exact .error e
  | @ok a a' d d' added locals locals' results =>
      have ended := later a a' results d d'
      show EndAlike S c c' (next a d) (next' a' d')
      generalize next a d = result, next' a' d' = result' at ended
      cases ended with
      | error e => exact .error e
      | ok more locals₁ locals₁' results =>
          refine .ok (added ++ more) ?_ ?_ results
          · rw [List.foldl_append, ← locals, locals₁]
          · rw [List.foldl_append, ← locals', locals₁']

theorem Steady.bind {next next' : α → CompileM β} (first : Steady m)
    (later : ∀ a, Matches S (next a) (next' a)) : Matches S (m >>= next) (m >>= next') :=
  Matches.bind first fun a _ same => same ▸ later a

theorem unsupported_steady (kind : Kind) (position : Position) :
    Steady (unsupported kind position : CompileM α) := .throw _

theorem require_steady (supported : Bool) (kind : Kind) (position : Position) :
    Steady (require supported kind position) := by
  unfold require
  split
  · exact .pure rfl
  · exact .throw _

theorem declareFor_steady (mode : Mode) (name : String) : Steady (declareFor mode name) := by
  cases mode with
  | target => exact fun _ _ => .ok [name] rfl rfl rfl
  | value => exact .pure rfl
  | location => exact .pure rfl

theorem nextLoop_matches : Matches (fun _ _ => True) nextLoop nextLoop :=
  fun _ _ => .ok [] rfl rfl trivial

/-- A body of its own is compiled in a context of its own. -/
theorem inBody_steady (parameters : List String) (m : CompileM α) :
    Steady (inBody parameters m) := by
  intro c c'
  cases ran : m (Context.ofParameters parameters) with
  | error e =>
      have failed : ∀ c, inBody parameters m c = .error e := fun c => by
        simp only [inBody, ran]
        rfl
      rw [failed, failed]
      exact .error e
  | ok result =>
      have given : ∀ c, inBody parameters m c = .ok (result, c) := fun c => by
        simp only [inBody, ran]
        rfl
      rw [given, given]
      exact .ok [] rfl rfl rfl

end rules

theorem asValue_steady {m : CompileM Fragment} (steady : Steady m) : Steady (asValue m) :=
  steady.bind fun _ => .pure rfl

theorem asPlace_steady {m : CompileM Fragment} (kind : Kind) (steady : Steady m) :
    Steady (asPlace kind m) := by
  refine steady.bind fun f => ?_
  cases f with
  | value e => exact .throw _
  | place p => exact .pure rfl

theorem accessFragment_steady (mode : Mode) (kind : Kind) (base : Fragment)
    (keys : List (Option Expr)) : Steady (accessFragment mode kind base keys) := by
  unfold accessFragment
  simp only
  split
  · exact .pure rfl
  · exact .throw _

mutual
theorem fragment_steady (mode : Mode) : (n : Node) → Steady (fragment mode n)
  | .variable name _ => by
      rw [fragment]
      exact (declareFor_steady mode _).bind fun _ => .pure rfl
  | .arrayIndex array indices _ => by
      rw [fragment]
      exact (require_steady _ _ _).bind fun _ =>
        (fragment_steady (baseMode mode) array).bind fun base =>
          (indexKeys_steady mode indices).bind fun keys => accessFragment_steady mode _ base keys
  | .objectProperty object properties _ => by
      rw [fragment]
      exact (require_steady _ _ _).bind fun _ =>
        (fragment_steady (baseMode mode) object).bind fun base =>
          (propertyKeys_steady properties).bind fun keys => accessFragment_steady mode _ base keys
  | .expression left [] => by
      rw [fragment]
      exact fragment_steady mode left
  | .expression left (⟨operator, operand⟩ :: rest) => by
      rw [fragment]
      split
      · exact (asPlace_steady _ (fragment_steady .target left)).bind fun _ =>
          operations_steady true _ (⟨operator, operand⟩ :: rest)
      · exact (asValue_steady (fragment_steady .value left)).bind fun _ =>
          operations_steady false _ (⟨operator, operand⟩ :: rest)
  | .unaryExpression token operand leading => by
      rw [fragment]
      split
      · exact .throw _
      · split
        · exact (asPlace_steady _ (fragment_steady .target operand)).bind fun _ => .pure rfl
        · exact (asValue_steady (fragment_steady .value operand)).bind fun _ => .pure rfl
  | .functionCall function arguments => by
      rw [fragment]
      exact (asValue_steady (fragment_steady .value function)).bind fun _ =>
        (values_steady arguments).bind fun _ => .pure rfl
  | .methodCall object calls => by
      rw [fragment]
      exact (asValue_steady (fragment_steady .value object)).bind fun e =>
        (methodCalls_steady e calls).bind fun _ => .pure rfl
  | .newExpression className arguments => by
      rw [fragment]
      exact (asValue_steady (fragment_steady .value className)).bind fun _ =>
        (values_steady arguments).bind fun _ => .pure rfl
  | .ternary condition options => by
      rw [fragment]
      exact (asValue_steady (fragment_steady .value condition)).bind fun e =>
        (choices_steady e options).bind fun _ => .pure rfl
  | .arrayLiteral elements => by
      rw [fragment]
      exact (entries_steady elements).bind fun _ => .pure rfl
  | .list elements => by
      rw [fragment]
      exact (require_steady _ _ _).bind fun _ =>
        (places_steady mode elements).bind fun _ => .pure rfl
  | .string _ | .integer _ | .float _ | .boolean _ | .stringLiteral _ | .void => by
      rw [fragment]
      exact .pure rfl
  | .keyValuePair .. | .program .. | .classStatement .. | .echoStatement ..
  | .expressionStatement .. | .foreachStatement .. | .functionStatement .. | .ifStatement ..
  | .inlineHtmlStatement .. | .returnStatement .. | .methodDefinition ..
  | .propertyDefinition .. => by
      rw [fragment]
      exact unsupported_steady _ _

theorem values_steady : (nodes : List Node) → Steady (values nodes)
  | [] => by
      rw [values]
      exact .pure rfl
  | n :: rest => by
      rw [values]
      exact (asValue_steady (fragment_steady .value n)).bind fun _ =>
        (values_steady rest).bind fun _ => .pure rfl

theorem places_steady (mode : Mode) : (nodes : List Node) → Steady (places mode nodes)
  | [] => by
      rw [places]
      exact .pure rfl
  | n :: rest => by
      rw [places]
      exact (asPlace_steady _ (fragment_steady mode n)).bind fun _ =>
        (places_steady mode rest).bind fun _ => .pure rfl

theorem entries_steady : (nodes : List Node) → Steady (entries nodes)
  | [] => by
      rw [entries]
      exact .pure rfl
  | n :: rest => by
      cases n with
      | keyValuePair key value =>
          rw [entries]
          exact (asValue_steady (fragment_steady .value key)).bind fun _ =>
            (asValue_steady (fragment_steady .value value)).bind fun _ =>
              (entries_steady rest).bind fun _ => .pure rfl
      | _ =>
          rw [entries]
          · exact (asValue_steady (fragment_steady .value _)).bind fun _ =>
              (entries_steady rest).bind fun _ => .pure rfl
          · exact fun _ _ => Node.noConfusion

theorem indexKeys_steady (mode : Mode) :
    (indices : List (Option Node)) → Steady (indexKeys mode indices)
  | [] => by
      rw [indexKeys]
      exact .pure rfl
  | none :: rest => by
      rw [indexKeys]
      exact (require_steady _ _ _).bind fun _ =>
        (indexKeys_steady mode rest).bind fun _ => .pure rfl
  | some key :: rest => by
      rw [indexKeys]
      exact (asValue_steady (fragment_steady .location key)).bind fun _ =>
        (indexKeys_steady mode rest).bind fun _ => .pure rfl

theorem propertyKeys_steady : (properties : List Node) → Steady (propertyKeys properties)
  | [] => by
      rw [propertyKeys]
      exact .pure rfl
  | key :: rest => by
      rw [propertyKeys]
      exact (asValue_steady (fragment_steady .location key)).bind fun _ =>
        (propertyKeys_steady rest).bind fun _ => .pure rfl

theorem operations_steady (assigns : Bool) (result : Fragment) :
    (rest : List (Operation Node)) → Steady (operations assigns result rest)
  | [] => by
      rw [operations]
      exact .pure rfl
  | ⟨token, operand⟩ :: rest => by
      unfold operations
      split
      · exact .throw _
      · exact (asValue_steady (fragment_steady .value operand)).bind fun _ =>
          operations_steady assigns _ rest
      · split
        · exact .throw _
        · split
          · exact (asPlace_steady _ (fragment_steady .target operand)).bind fun _ =>
              operations_steady assigns _ rest
          · exact (asValue_steady (fragment_steady .value operand)).bind fun _ =>
              operations_steady assigns _ rest

theorem methodCalls_steady (object : Expr) :
    (calls : List (Call Node)) → Steady (methodCalls object calls)
  | [] => by
      rw [methodCalls]
      exact .pure rfl
  | ⟨method, arguments⟩ :: rest => by
      rw [methodCalls]
      exact (asValue_steady (fragment_steady .value method)).bind fun _ =>
        (values_steady arguments).bind fun _ => methodCalls_steady _ rest

theorem choices_steady (condition : Expr) :
    (options : List (Choice Node)) → Steady (choices condition options)
  | [] => by
      rw [choices]
      exact .pure rfl
  | ⟨consequent, alternate⟩ :: rest => by
      rw [choices]
      exact (asValue_steady (fragment_steady .value consequent)).bind fun _ =>
        (asValue_steady (fragment_steady .value alternate)).bind fun _ => choices_steady _ rest
end

theorem valueOf_steady (n : Node) : Steady (valueOf n) := asValue_steady (fragment_steady .value n)

theorem targetOf_steady (n : Node) : Steady (targetOf n) :=
  asPlace_steady _ (fragment_steady .target n)

theorem optionalValue_steady (n : Option Node) : Steady (optionalValue n) := by
  cases n with
  | none => exact .pure rfl
  | some n => exact (valueOf_steady n).bind fun _ => .pure rfl

theorem optionalTarget_steady (n : Option Node) : Steady (optionalTarget n) := by
  cases n with
  | none => exact .pure rfl
  | some n => exact (targetOf_steady n).bind fun _ => .pure rfl

theorem parameterNames_steady (parameters : List Node) :
    Steady (parameters.mapM parameterName) := by
  induction parameters with
  | nil => exact .pure rfl
  | cons n rest ih =>
      rw [List.mapM_cons]
      have named : Steady (parameterName n) := by
        unfold parameterName
        split
        · exact .pure rfl
        · exact unsupported_steady _ _
      exact named.bind fun _ => Steady.bind ih fun _ => .pure rfl

theorem joined_matches {first second : CompileM Block} (early : Matches SameCode first first)
    (late : Matches SameCode second second) :
    Matches SameCode (joined first second) (joined first second) := by
  refine early.bind fun b b' same => late.bind fun d d' same' => .pure ?_
  rw [SameCode, unnumberedAll_append, unnumberedAll_append, same, same']

theorem classMembers_steady (found : Members) (members : List Node) :
    Steady (classMembers found members) := by
  induction members generalizing found with
  | nil =>
      rw [classMembers]
      exact .pure rfl
  | cons n rest ih =>
      cases n with
      | propertyDefinition target value =>
          cases target with
          | «variable» name _ =>
              rw [classMembers]
              exact (optionalValue_steady value).bind fun _ => ih _
          | _ =>
              rw [classMembers]
              · exact unsupported_steady _ _
              · intros; contradiction
      | methodDefinition name parameters statements =>
          cases name with
          | string name =>
              rw [classMembers]
              exact (parameterNames_steady parameters).bind fun ps =>
                (inBody_steady ps _).bind fun _ => ih _
          | _ =>
              rw [classMembers]
              · exact unsupported_steady _ _
              · intros; contradiction
      | _ =>
          rw [classMembers]
          · exact unsupported_steady _ _
          all_goals intros; contradiction

mutual
theorem statement_matches : (n : Node) →
    Matches (fun s s' => s.unnumbered = s'.unnumbered) (statement n) (statement n)
  | .echoStatement operand | .expressionStatement operand => by
      rw [statement]
      exact (valueOf_steady operand).bind fun _ => .pure rfl
  | .inlineHtmlStatement html => by
      rw [statement]
      exact .pure rfl
  | .returnStatement operand => by
      rw [statement]
      exact (optionalValue_steady operand).bind fun _ => .pure rfl
  | .ifStatement condition consequent alternate => by
      rw [statement]
      refine (valueOf_steady condition).bind fun e =>
        (joined_matches (selected_matches true consequent)
          (selected_matches false consequent)).bind fun b b' same =>
        (joined_matches (selected_matches true alternate)
          (selected_matches false alternate)).bind fun d d' same' => .pure ?_
      rw [Stmt.unnumbered, Stmt.unnumbered, same, same']
  | .foreachStatement array key value statements => by
      rw [statement]
      refine (valueOf_steady array).bind fun a => (optionalTarget_steady key).bind fun k =>
        (targetOf_steady value).bind fun p => nextLoop_matches.bind fun slot slot' _ =>
          (joined_matches (selected_matches true statements)
            (selected_matches false statements)).bind fun b b' same => .pure ?_
      rw [Stmt.unnumbered, Stmt.unnumbered, same]
  | .functionStatement name parameters statements => by
      rw [statement]
      exact (parameterNames_steady parameters).bind fun ps =>
        (inBody_steady ps _).bind fun _ => .pure rfl
  | .classStatement className members => by
      rw [statement]
      exact (valueOf_steady className).bind fun _ =>
        (classMembers_steady _ members).bind fun _ => .pure rfl
  | .program .. | .methodDefinition .. | .propertyDefinition .. | .arrayIndex ..
  | .arrayLiteral .. | .boolean .. | .expression .. | .float .. | .functionCall ..
  | .integer .. | .keyValuePair .. | .list .. | .methodCall .. | .newExpression ..
  | .objectProperty .. | .string .. | .stringLiteral .. | .ternary .. | .unaryExpression ..
  | .variable .. | .void => by
      rw [statement]
      · exact .throw _
      all_goals intros; contradiction

theorem selected_matches (declarations : Bool) : (nodes : List Node) →
    Matches SameCode (selected declarations nodes) (selected declarations nodes)
  | [] => by
      rw [selected]
      exact .pure rfl
  | n :: rest => by
      rw [selected]
      split
      · refine (statement_matches n).bind fun s s' same =>
          (selected_matches declarations rest).bind fun b b' same' => .pure ?_
        rw [SameCode, unnumberedAll, unnumberedAll, same, same']
      · exact selected_matches declarations rest
end

/-! Statements after others -/

theorem selected_append {declarations : Bool} {first second : List Node} {c c' : Context}
    {b : Block} (compiled : selected declarations (first ++ second) c = .ok (b, c')) :
    ∃ b₁ b₂ c₁, selected declarations first c = .ok (b₁, c₁) ∧
      selected declarations second c₁ = .ok (b₂, c') ∧ b = b₁ ++ b₂ := by
  induction first generalizing c b with
  | nil => exact ⟨[], b, c, rfl, compiled, rfl⟩
  | cons n rest ih =>
      rw [List.cons_append, selected] at compiled
      rw [selected]
      split at compiled
      · next here =>
          rw [if_pos here]
          obtain ⟨s, d, ran, compiled⟩ := bind_eq_ok.mp compiled
          obtain ⟨more, d', ran', ⟨⟩⟩ := bind_eq_ok.mp compiled
          obtain ⟨b₁, b₂, c₁, early, late, rfl⟩ := ih ran'
          exact ⟨s :: b₁, b₂, c₁, bind_eq_ok.mpr ⟨s, d, ran, bind_eq_ok.mpr ⟨b₁, c₁, early, rfl⟩⟩,
            late, rfl⟩
      · next other =>
          rw [if_neg other]
          exact ih compiled

theorem selected_none {declarations : Bool} {statements : List Node}
    (none : ∀ s ∈ statements, s.isDeclaration = !declarations) :
    selected declarations statements = pure [] := by
  rw [← selected_filter, List.filter_eq_nil_iff.mpr fun s member => ?_]
  · rfl
  · simp [none s member]

theorem program_eq_ok {statements : List Node} {p : Code.Program} :
    program (.program statements) = .ok p ↔ ∃ b b' c c',
      selected true statements ⟨[], 0⟩ = .ok (b, c) ∧ selected false statements c = .ok (b', c') ∧
        p = ⟨b ++ b', c'.locals, c'.loops⟩ := by
  constructor
  · intro compiled
    obtain ⟨_, ⟨⟩, ran⟩ := program_compiled compiled
    obtain ⟨b, c, hoisted, rest⟩ := bind_eq_ok.mp ran
    obtain ⟨b', c', others, last⟩ := bind_eq_ok.mp rest
    obtain ⟨isBody, isContext⟩ : b ++ b' = p.body ∧ c' = ⟨p.locals, p.loopSlots⟩ := by
      simpa using Except.ok.inj last
    exact ⟨b, b', c, c', hoisted, others, by rw [isBody, isContext]⟩
  · rintro ⟨b, b', c, c', hoisted, others, rfl⟩
    have ran : block statements ⟨[], 0⟩ = .ok (b ++ b', c') :=
      bind_eq_ok.mpr ⟨b, c, hoisted, bind_eq_ok.mpr ⟨b', c', others, rfl⟩⟩
    simp only [program, StateT.run, ran]
    rfl

/-- A program whose last statements declare nothing is the program without them, and after it,
but for the numbers of loops, the program of these statements. -/
theorem program_append {first second : List Node} {p : Code.Program}
    (plain : ∀ s ∈ second, s.isDeclaration = false)
    (compiled : program (.program (first ++ second)) = .ok p) :
    ∃ p₁ p₂ tail, ∃ added : List String, program (.program first) = .ok p₁ ∧
      program (.program second) = .ok p₂ ∧
      p.body = p₁.body ++ tail ∧ SameCode tail p₂.body ∧
      p.locals = added.foldl addLocal p₁.locals ∧ p₂.locals = added.foldl addLocal [] := by
  obtain ⟨_, _, c, c', hoisted, others, rfl⟩ := program_eq_ok.mp compiled
  obtain ⟨b₁, b₂, c₁, early, late, rfl⟩ := selected_append hoisted
  obtain ⟨d₁, d₂, c₂, early', late', rfl⟩ := selected_append others
  have none : selected true second = pure [] := selected_none plain
  rw [none] at late
  obtain ⟨⟩ := late
  have ended := selected_matches false second c₂ ⟨[], 0⟩
  rw [late'] at ended
  generalize ran : selected false second ⟨[], 0⟩ = result at ended
  cases ended with
  | @ok _ d₂' _ c₂' added locals locals' same =>
      have alone : selected true second ⟨[], 0⟩ = .ok ([], ⟨[], 0⟩) := by rw [none]; rfl
      exact ⟨_, _, d₂, added, program_eq_ok.mpr ⟨_, _, _, _, early, early', rfl⟩,
        program_eq_ok.mpr ⟨_, _, _, _, alone, ran, rfl⟩, by simp, same, locals, locals'⟩

end Compile
end TreeScript
