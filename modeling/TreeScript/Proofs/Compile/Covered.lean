import TreeScript.Proofs.Compile.Locals

set_option autoImplicit false

/- Statements, functions and whole programs as the compiler puts them together: each writes only
to the locals of its body, and a function has locals of its own. -/
namespace TreeScript.Compile

open Code (Expr Place Stmt Block Function)

mutual
/-- A statement that writes only to the given names, and defines only functions that have locals
of their own for what they write to. -/
inductive Covered : List String → Stmt → Prop
  | echo {names e} (written : e.written ⊆ names) : Covered names (.echo e)
  | inlineHtml {names} (html) : Covered names (.inlineHtml html)
  | expression {names e} (written : e.written ⊆ names) : Covered names (.expression e)
  | ifElse {names condition consequent alternate} (written : condition.written ⊆ names)
      (first : ∀ s ∈ consequent, Covered names s) (second : ∀ s ∈ alternate, Covered names s) :
      Covered names (.ifElse condition consequent alternate)
  | foreach {names array key value body} (slot byReference) (walked : array.written ⊆ names)
      (keyed : Code.writtenInPlace? key ⊆ names) (valued : value.written .write ⊆ names)
      (each : ∀ s ∈ body, Covered names s) :
      Covered names (.foreach slot array key value byReference body)
  | ret {names e} (written : Code.writtenInKey e ⊆ names) : Covered names (.ret e)
  | defineFunction {names f} (own : OwnLocals f) : Covered names (.defineFunction f)
  | defineClass {names definition} (named : definition.name.written ⊆ names)
      (defaults : Code.writtenInDefaults definition.properties ⊆ names)
      (methods : ∀ method ∈ definition.methods, OwnLocals method.2) :
      Covered names (.defineClass definition)

/-- A function whose body, after the declarations, writes only to what these declare. -/
inductive OwnLocals : Function Stmt → Prop
  | assembled {statements context} (name parameters isMethod)
      (covered : ∀ s ∈ statements, Covered context.locals s) :
      OwnLocals (assembleFunction name parameters isMethod statements context)
end

abbrev AllCovered (names : List String) (block : Block) : Prop := ∀ s ∈ block, Covered names s

theorem Covered.mono {names names' : List String} (grows : names ⊆ names') {s : Stmt} :
    Covered names s → Covered names' s
  | .echo written => .echo (List.Subset.trans written grows)
  | .inlineHtml html => .inlineHtml html
  | .expression written => .expression (List.Subset.trans written grows)
  | .ifElse written first second =>
      .ifElse (List.Subset.trans written grows) (fun s member => (first s member).mono grows)
        fun s member => (second s member).mono grows
  | .foreach slot byReference walked keyed valued each =>
      .foreach slot byReference (List.Subset.trans walked grows) (List.Subset.trans keyed grows)
        (List.Subset.trans valued grows) fun s member => (each s member).mono grows
  | .ret written => .ret (List.Subset.trans written grows)
  | .defineFunction own => .defineFunction own
  | .defineClass named defaults methods =>
      .defineClass (List.Subset.trans named grows) (List.Subset.trans defaults grows) methods

variable {names : List String}

/-- The last statement of a program. -/
theorem Covered.retNull : Covered names (.ret (some .null)) :=
  .ret (by simp [Code.writtenInKey, Expr.written])

theorem writtenInDefaults_subset {properties : List (String × Expr)} :
    Code.writtenInDefaults properties ⊆ names ↔
      ∀ entry ∈ properties, entry.2.written ⊆ names := by
  induction properties with
  | nil => simp [Code.writtenInDefaults]
  | cons entry rest ih => simp [Code.writtenInDefaults, ih]

theorem optionalValue_covers (n : Option Node) :
    Covers names (fun names e => Code.writtenInKey e ⊆ names) (optionalValue n) := by
  cases n with
  | none => exact .pure fun _ _ => by simp [Code.writtenInKey]
  | some n =>
      apply (valueOf_covers n).bind
      intro _ e _ written
      apply Covers.pure
      intro _ grows
      simpa [Code.writtenInKey] using List.Subset.trans written grows

theorem optionalTarget_covers (n : Option Node) :
    Covers names (fun names p => Code.writtenInPlace? p ⊆ names) (optionalTarget n) := by
  cases n with
  | none => exact .pure fun _ _ => by simp [Code.writtenInPlace?]
  | some n =>
      apply (targetOf_covers n).bind
      intro _ p _ written
      apply Covers.pure
      intro _ grows
      simpa [Code.writtenInPlace?] using List.Subset.trans written grows

theorem parameterNames_covers (parameters : List Node) :
    Covers names (fun _ _ => True) (parameters.mapM parameterName) := by
  induction parameters generalizing names with
  | nil => exact .pure fun _ _ => trivial
  | cons n rest ih =>
      rw [List.mapM_cons]
      have named : Covers names (fun _ _ => True) (parameterName n) := by
        unfold parameterName
        split
        · exact .pure fun _ _ => trivial
        · exact covers_unsupported _ _
      exact named.bind fun _ _ _ _ => ih.bind fun _ _ _ _ => .pure fun _ _ => trivial

theorem nextLoop_covers : Covers names (fun _ _ => True) nextLoop := by
  rintro c _ _ _ ⟨⟩
  exact ⟨List.Subset.refl _, trivial⟩

/-- A body of its own has its own locals, and leaves those around it alone. -/
theorem inBody_covers {α : Type} {Q : List String → α → Prop} {m : CompileM α}
    (parameters : List String) (covers : Covers [] Q m) :
    Covers names (fun _ result => Q result.2.locals result.1) (inBody parameters m) := by
  intro c result c' _ done
  simp only [inBody] at done
  cases ran : m (Context.ofParameters parameters) with
  | error e =>
      rw [ran] at done
      cases done
  | ok inner =>
      obtain ⟨a, context⟩ := inner
      rw [ran] at done
      cases done
      exact ⟨List.Subset.refl _, (covers _ _ _ (by simp) ran).2⟩

/-- What is known of the members of a class. -/
structure MembersCovered (names : List String) (found : Members) : Prop where
  properties : Code.writtenInDefaults found.properties ⊆ names
  methods : ∀ method ∈ found.methods, OwnLocals method.2

theorem joined_covers {first second : CompileM Block}
    (hoisted : ∀ {names}, Covers names AllCovered first)
    (others : ∀ {names}, Covers names AllCovered second) :
    Covers names AllCovered (joined first second) := by
  apply hoisted.bind
  intro _ b _ covered
  apply others.bind
  intro _ b' grows₁ covered'
  refine .pure fun _ grows₂ s member => ?_
  rcases List.mem_append.mp member with early | late
  · exact (covered s early).mono (List.Subset.trans grows₁ grows₂)
  · exact (covered' s late).mono grows₂

mutual
theorem statement_covers {names : List String} :
    (n : Node) → Covers names Covered (statement n)
  | .echoStatement operand => by
      rw [statement]
      exact (valueOf_covers operand).bind fun _ _ _ written =>
        .pure fun _ grows => .echo (List.Subset.trans written grows)
  | .expressionStatement operand => by
      rw [statement]
      exact (valueOf_covers operand).bind fun _ _ _ written =>
        .pure fun _ grows => .expression (List.Subset.trans written grows)
  | .inlineHtmlStatement html => by
      rw [statement]
      exact .pure fun _ _ => .inlineHtml html
  | .returnStatement operand => by
      rw [statement]
      exact (optionalValue_covers operand).bind fun _ _ _ written =>
        .pure fun _ grows => .ret (List.Subset.trans written grows)
  | .ifStatement condition consequent alternate => by
      rw [statement]
      apply (valueOf_covers condition).bind
      intro _ e _ written
      apply (joined_covers (selected_covers true consequent)
        (selected_covers false consequent)).bind
      intro _ b grows₁ first
      apply (joined_covers (selected_covers true alternate)
        (selected_covers false alternate)).bind
      intro _ b' grows₂ second
      refine .pure fun _ grows₃ => .ifElse ?_ ?_ ?_
      · exact List.Subset.trans written (List.Subset.trans grows₁ (List.Subset.trans grows₂ grows₃))
      · exact fun s member => (first s member).mono (List.Subset.trans grows₂ grows₃)
      · exact fun s member => (second s member).mono grows₃
  | .foreachStatement array key value statements => by
      rw [statement]
      apply (valueOf_covers array).bind
      intro _ a _ walked
      apply (optionalTarget_covers key).bind
      intro _ k grows₁ keyed
      apply (targetOf_covers value).bind
      intro _ p grows₂ valued
      apply nextLoop_covers.bind
      intro _ slot grows₃ _
      apply (joined_covers (selected_covers true statements)
        (selected_covers false statements)).bind
      intro _ body grows₄ each
      refine .pure fun _ grows₅ => ?_
      have grows := List.Subset.trans grows₃ (List.Subset.trans grows₄ grows₅)
      exact .foreach slot value.isReference
        (List.Subset.trans walked (List.Subset.trans grows₁ (List.Subset.trans grows₂ grows)))
        (List.Subset.trans keyed (List.Subset.trans grows₂ grows)) (List.Subset.trans valued grows)
        fun s member => (each s member).mono grows₅
  | .functionStatement name parameters statements => by
      rw [statement]
      apply (parameterNames_covers parameters).bind
      intro _ ps _ _
      apply (inBody_covers ps (joined_covers (selected_covers true statements)
        (selected_covers false statements))).bind
      intro _ result _ covered
      exact .pure fun _ _ => .defineFunction (.assembled name ps false covered)
  | .classStatement className members => by
      rw [statement]
      apply (valueOf_covers className).bind
      intro _ e _ named
      refine (classMembers_covers ⟨[], []⟩ members ⟨by simp [Code.writtenInDefaults], by simp⟩).bind
        fun _ found grows₁ covered => .pure fun _ grows₂ => ?_
      exact .defineClass (List.Subset.trans named (List.Subset.trans grows₁ grows₂))
        (List.Subset.trans covered.properties grows₂) covered.methods
  | .program .. | .methodDefinition .. | .propertyDefinition .. | .arrayIndex ..
  | .arrayLiteral .. | .boolean .. | .expression .. | .float .. | .functionCall ..
  | .integer .. | .keyValuePair .. | .list .. | .methodCall .. | .newExpression ..
  | .objectProperty .. | .string .. | .stringLiteral .. | .ternary .. | .unaryExpression ..
  | .variable .. | .void => covers_unsupported _ _

theorem selected_covers {names : List String} (declarations : Bool) :
    (nodes : List Node) → Covers names AllCovered (selected declarations nodes)
  | [] => by
      rw [selected]
      exact .pure fun _ _ => by simp [AllCovered]
  | n :: rest => by
      rw [selected]
      split
      · apply (statement_covers n).bind
        intro _ s _ covered
        apply (selected_covers declarations rest).bind
        intro _ more grows₁ within
        exact .pure fun _ grows₂ => List.forall_mem_cons.mpr
          ⟨covered.mono (List.Subset.trans grows₁ grows₂),
            fun s member => (within s member).mono grows₂⟩
      · exact selected_covers declarations rest

theorem classMembers_covers {names : List String} (found : Members) :
    (members : List Node) → MembersCovered names found →
      Covers names MembersCovered (classMembers found members)
  | [], covered => by
      rw [classMembers]
      exact .pure fun _ grows => ⟨List.Subset.trans covered.properties grows, covered.methods⟩
  | n :: rest, covered => by
      cases n with
      | propertyDefinition target value =>
          cases target with
          | «variable» name _ =>
              rw [classMembers]
              apply (optionalValue_covers value).bind
              intro names' default grows written
              refine classMembers_covers _ rest ⟨?_, covered.methods⟩
              apply writtenInDefaults_subset.mpr
              intro entry member
              rcases Assoc.mem_set member with old | isNew
              · have before := writtenInDefaults_subset.mp covered.properties entry old
                exact List.Subset.trans before grows
              · rw [isNew]
                cases default with
                | none => simp [Expr.written]
                | some e => exact written
          | _ => exact covers_unsupported _ _
      | methodDefinition name parameters statements =>
          cases name with
          | string name =>
              rw [classMembers]
              apply (parameterNames_covers parameters).bind
              intro _ ps grows₁ _
              apply (inBody_covers ps (joined_covers (selected_covers true statements)
                (selected_covers false statements))).bind
              intro _ result grows₂ body
              refine classMembers_covers _ rest
                ⟨List.Subset.trans covered.properties (List.Subset.trans grows₁ grows₂),
                  fun method member => ?_⟩
              rcases Assoc.mem_set member with old | isNew
              · exact covered.methods method old
              · rw [isNew]
                exact .assembled name ps true body
          | _ => exact covers_unsupported _ _
      | _ => exact covers_unsupported _ _
end

/-- The body of a whole program writes only to its locals. -/
theorem program_covered {tree : Node} {p : Code.Program} (compiled : program tree = .ok p) :
    AllCovered p.locals p.body := by
  cases tree with
  | program statements =>
      simp only [program] at compiled
      cases ran : (block statements).run ⟨[], 0⟩ with
      | error e =>
          rw [ran] at compiled
          cases compiled
      | ok result =>
          rw [ran] at compiled
          cases compiled
          have covers : Covers [] AllCovered (block statements) :=
            joined_covers (selected_covers true statements) (selected_covers false statements)
          exact (covers _ _ _ (by simp) ran).2
  | _ => cases compiled

end TreeScript.Compile
