import TreeScript.Proofs.Names.Lookup
import TreeScript.Proofs.Operands
import TreeScript.Session

set_option autoImplicit false

/- Declared names are found. What a block declares under a name is what the bare word leads to in
the other statements of the block, whatever these do meanwhile: as the callee of a call, as a method
of an object of the class, and as a property of a new one. The word null is no name, and a function
of the name that some code defines anew takes the place of the first. -/
namespace TreeScript

open Code (Expr Function Stmt Block Routine ClassDefinition routinesOf)
open Compile (Context CompiledFrom AllCompiledFrom MembersFrom selected statement optionalValue
  variableName)
open Node (blockRoutines groupRoutines)

/-! Functions -/

/-- Each function that the code defines under the name is compiled from the declaration. -/
def OnlyDeclares (name : String) (n : Node) (b : Block) : Prop :=
  ∀ r ∈ routinesOf b, r.isMethod = false → normalName r.function.name = normalName name →
    CompiledFrom n ⟨false, r.function⟩

/-- So it is with all code that can be called. -/
structure Machine.OnlyDeclares (m : Machine) (name : String) (n : Node) : Prop where
  functions : ∀ key f, (key, Callable.user f) ∈ m.names.functions →
    TreeScript.OnlyDeclares name n f.body
  methods : ∀ data ∈ m.store.classes, ∀ key f, (key, Callable.user f) ∈ data.methods →
    TreeScript.OnlyDeclares name n f.body

/-- Only the declaration defines a function of the name, and has defined it once it is made. -/
def Pledge.sole (name : String) (n : Node) (made : Prop) : Pledge where
  allowed f := normalName f.name = normalName name → CompiledFrom n ⟨false, f⟩
  upheld names := made →
    ∃ f, CompiledFrom n ⟨false, f⟩ ∧ names.function? name = some (.user f)
  define {names g} upheld allowed isMade := by
    by_cases same : normalName g.name = normalName name
    · refine ⟨g, allowed same, ?_⟩
      rw [Namespace.function?, Namespace.defineFunction, ← same]
      exact Assoc.get?_set_self _ _ _
    · obtain ⟨f, compiled, named⟩ := upheld isMade
      refine ⟨f, compiled, ?_⟩
      rw [← named]
      exact Assoc.get?_set_of_ne _ _ _ _ (Ne.symm same)
  declare _ _ upheld := upheld

theorem mem_source {nodes : List Node} {routines : List Routine}
    (compiled : AllCompiledFrom nodes routines) {r : Routine} (member : r ∈ routines) :
    ∃ n ∈ nodes, CompiledFrom n r := by
  induction compiled with
  | nil => cases member
  | @cons n first nodes rest here _ ih =>
      rcases List.mem_cons.mp member with rfl | later
      · exact ⟨n, List.mem_cons_self, here⟩
      · obtain ⟨other, listed, compiled⟩ := ih later
        exact ⟨other, List.mem_cons_of_mem _ listed, compiled⟩

theorem mem_blockRoutines {declarations : Bool} {statements : List Node} {n : Node}
    (member : n ∈ groupRoutines declarations statements) : n ∈ blockRoutines statements := by
  cases declarations with
  | true => exact List.mem_append_left _ member
  | false => exact List.mem_append_right _ member

section functions

variable {name : String} {parameters body statements : List Node}

/-- Where a block declares the function once, so does the compiled block. -/
theorem onlyDeclares_of_selected
    (only : ∀ other ps ss, .functionStatement other ps ss ∈ blockRoutines statements →
      normalName other = normalName name →
        Node.functionStatement other ps ss = .functionStatement name parameters body)
    {declarations : Bool} {b : Block} {c c' : Context}
    (compiled : selected declarations statements c = .ok (b, c')) :
    OnlyDeclares name (.functionStatement name parameters body) b := by
  intro r member isFunction named
  obtain ⟨n, listed, from_⟩ :=
    mem_source ((Compile.selected_routines declarations statements).holds compiled) member
  cases from_ with
  | function other inside =>
      rw [← only _ _ _ (mem_blockRoutines listed) named]
      exact .function other inside
  | method other inside => cases isFunction

/-- Once the declarations have run, the name stands for the function that the block declares. -/
theorem function_stands {definitions others : Block} {c c₁ c₂ : Context} {levels : Nat}
    {frame : Frame} {m m₁ m₂ : Machine}
    (compiled : selected true statements c = .ok (definitions, c₁))
    (compiledOthers : selected false statements c₁ = .ok (others, c₂)) (scopes : m.scopes ≠ [])
    (ran : (execBlock (invoke levels) frame definitions).run m = .ok .normal m₁)
    (reached : (execBlock (invoke levels) frame others).Reaches m₁ m₂)
    (declared : .functionStatement name parameters body ∈ statements)
    (only : ∀ other ps ss, .functionStatement other ps ss ∈ blockRoutines statements →
      normalName other = normalName name →
        Node.functionStatement other ps ss = .functionStatement name parameters body)
    (known : m.OnlyDeclares name (.functionStatement name parameters body)) :
    ∃ f, CompiledFrom (.functionStatement name parameters body) ⟨false, f⟩ ∧
      m₂.names.function? name = some (.user f) := by
  let P := Pledge.sole name (.functionStatement name parameters body)
  have allows : ∀ made, (P made).Allows definitions :=
    fun _ => onlyDeclares_of_selected only compiled
  have allowsOthers : (P True).Allows others := onlyDeclares_of_selected only compiledOthers
  obtain ⟨before, s, after, c₃, c₄, rfl, here⟩ := Compile.mem_selected declared compiled
  obtain ⟨f, rfl, isNamed, isCompiled⟩ := Compile.functionStatement_ok here
  obtain ⟨m₃, ranBefore, ran⟩ := of_run_append ran
  obtain ⟨m₄, defined, ranAfter⟩ := of_run_cons ran
  rw [execStmt] at defined
  cases defined
  have start : (P False).Later m m :=
    .start ⟨False.elim, known.functions, known.methods⟩ scopes
  have early : (P False).Allows before := (allows False).of_append.1
  have late : (P True).Allows (.defineFunction f :: after) := (allows True).of_append.2
  have ahead := start.block early (Run.reaches_end ranBefore)
  have standing : (P True).Kept
      { m₃ with names := m₃.names.defineFunction f.name (.user f) } := by
    have bound : (P True).Allows f.body := fun r member =>
      late r (List.mem_append_left _ (List.mem_cons_of_mem _ member))
    refine ⟨fun _ => ⟨f, isCompiled, ?_⟩, fun key g member => ?_, ahead.methods⟩
    · rw [Namespace.function?, Namespace.defineFunction, isNamed]
      exact Assoc.get?_set_self _ _ _
    · rcases Assoc.mem_set member with old | isNew
      · exact ahead.functions key g old
      · exact Callable.user.inj isNew ▸ bound
  have allowsAfter : (P True).Allows after := fun r member =>
    late r (List.mem_append_right _ member)
  have later := ((Pledge.Later.start standing ahead.scopes).block allowsAfter
    (Run.reaches_end ranAfter)).block allowsOthers reached
  exact later.upheld trivial

end functions

/-! Classes -/

/-- The class is the one that the declaration adds while the definitions of its block run. -/
def AddsClass (n : Node) (levels : Nat) (frame : Frame) (definitions : Block) (m : Machine)
    (id : ClassId) : Prop :=
  ∃ definition c c' m₁ m₂, statement n c = .ok (.defineClass definition, c') ∧
    (execBlock (invoke levels) frame definitions).Reaches m m₁ ∧
    (defineClass (invoke levels) frame definition).run m₁ = .ok () m₂ ∧
    m₂.store.classes.size = id.index + 1

/-- The value is what the default of a property gave while the definitions of its block ran. -/
def GivesDefault (value : Option Node) (levels : Nat) (frame : Frame) (definitions : Block)
    (m : Machine) (v : Value) : Prop :=
  ∃ c default c' held m₁ m₂, optionalValue value c = .ok (default, c') ∧
    (execBlock (invoke levels) frame definitions).Reaches m m₁ ∧
    (evalExpr (invoke levels) (frame.holding held) (default.getD .null)).run m₁ = .ok v m₂

section classes

variable {className : Node} {members statements : List Node} {definitions others : Block}
  {c c₁ c₂ : Context} {levels : Nat} {frame : Frame} {m m₁ m₂ : Machine}

/-- Once the declarations have run, the class that the block declares is there, with the defaults as
they were evaluated. -/
theorem class_stands (compiled : selected true statements c = .ok (definitions, c₁))
    (scopes : m.scopes ≠ [])
    (ran : (execBlock (invoke levels) frame definitions).run m = .ok .normal m₁)
    (declared : .classStatement className members ∈ statements) :
    ∃ (id : ClassId) (definition : ClassDefinition Stmt) (named : String)
      (defaults : List (String × Value)) (m₃ m₄ : Machine),
      AddsClass (.classStatement className members) levels frame definitions m id ∧
      MembersFrom members ⟨[], []⟩ ⟨definition.properties, definition.methods⟩ ∧
      m₁.store.classes[id.index]? = some (definition.made named defaults) ∧
      (evalDefaults (invoke levels) frame definition.properties).run m₃ = .ok defaults m₄ ∧
      ∀ m', (evalDefaults (invoke levels) frame definition.properties).Reaches m₃ m' →
        (execBlock (invoke levels) frame definitions).Reaches m m' := by
  obtain ⟨before, s, after, c₃, c₄, rfl, here⟩ := Compile.mem_selected declared compiled
  obtain ⟨definition, c₅, rfl, inside⟩ := Compile.classStatement_ok here
  obtain ⟨m₃, ranBefore, ran⟩ := of_run_append ran
  obtain ⟨m₄, declares, ranAfter⟩ := of_run_cons ran
  rw [execStmt] at declares
  obtain ⟨_, m₅, made, declares⟩ := Run.of_run_bind declares
  cases declares
  obtain ⟨v, m₆, defaults, m₇, named, evaluated, rfl⟩ := defineClass_ok made
  let data := definition.made (m₆.store.toText v) defaults
  have comes : ∀ {m'}, (defineClass (invoke levels) frame definition).Reaches m₃ m' →
      (execBlock (invoke levels) frame (before ++ .defineClass definition :: after)).Reaches
        m m' := by
    intro m' reached
    refine reaches_append ranBefore (reaches_cons after ?_)
    rw [execStmt]
    exact reached.first _
  have start := Pledge.later_empty scopes
  have there := start.block (Pledge.empty_allows _) (comes (Run.reaches_end made))
  have ahead := there.here.block (Pledge.empty_allows after) (Run.reaches_end ranAfter)
  refine ⟨(m₇.store.newClass data).1, definition, m₆.store.toText v, defaults, m₆, m₇, ?_,
    (Compile.classMembers_from members).holds inside, ?_, evaluated, fun m' reached => ?_⟩
  · refine ⟨definition, c₃, c₄, m₃, _, here, comes (.start _ _), made, ?_⟩
    exact Array.size_push data
  · exact ahead.retains.classes _ _ Array.getElem?_push_size
  · apply comes
    have text : (Run.inspect (·.toText v)).run m₆ = .ok (m₆.store.toText v) m₆ := rfl
    exact .next named (.next text (reached.first _))

end classes

/-! Declared names -/

/-- While the statements of a block run that are not declarations, every name but null leads to what
the block declares under it: a call by the bare word to the function, if no code that can be called
and no other part of the block defines one of the name, without regard to case and to leading
backslashes; a method call by the bare word, on an object of a class that the block declares, to
the method that alone has the name, without regard to case; and a read of a new object of the class
to the plain default of the property that alone has the name, if the class has no constructor. -/
theorem declared_names_are_found {name : String} (notNull : name ≠ "null") {statements : List Node}
    {definitions others : Block} {c c₁ c₂ : Context} {levels : Nat} {frame : Frame}
    {m m₁ m₂ : Machine} (compiled : selected true statements c = .ok (definitions, c₁))
    (compiledOthers : selected false statements c₁ = .ok (others, c₂)) (scopes : m.scopes ≠ [])
    (ran : (execBlock (invoke levels) frame definitions).run m = .ok .normal m₁)
    (reached : (execBlock (invoke levels) frame others).Reaches m₁ m₂) :
    (∀ parameters body, .functionStatement name parameters body ∈ statements →
      (∀ other ps ss, .functionStatement other ps ss ∈ blockRoutines statements →
        normalName other = normalName name →
          Node.functionStatement other ps ss = .functionStatement name parameters body) →
      m.OnlyDeclares name (.functionStatement name parameters body) →
        CallRuns name parameters body m₂) ∧
    ∀ className members, .classStatement className members ∈ statements →
      ∃ id, AddsClass (.classStatement className members) levels frame definitions m id ∧
        (∀ parameters body, .methodDefinition (.string name) parameters body ∈ members →
          (∀ other ps ss, .methodDefinition (.string other) ps ss ∈ members →
            Text.lowercase other = Text.lowercase name →
              Node.methodDefinition (.string other) ps ss =
                .methodDefinition (.string name) parameters body) →
          MethodRuns name parameters body id m₂) ∧
        ∀ spelling reference value,
          .propertyDefinition (.variable spelling reference) value ∈ members →
          variableName spelling = name →
          (∀ other reference' value',
            .propertyDefinition (.variable other reference') value' ∈ members →
              variableName other = name → value' = value) →
          (∀ other ps ss, .methodDefinition (.string other) ps ss ∈ members →
            Text.lowercase other ≠ "__construct") →
          ∃ v, GivesDefault value levels frame definitions m v ∧
            (v.handles = [] → PropertyReads name v id m₂) := by
  refine ⟨fun parameters body declared only known => ?_, fun className members declared => ?_⟩
  · obtain ⟨f, isCompiled, named⟩ :=
      function_stands compiled compiledOthers scopes ran reached declared only known
    exact callRuns_of_named notNull isCompiled named
  · obtain ⟨id, definition, named, defaults, m₃, m₄, adds, inside, found, evaluated, comes⟩ :=
      class_stands compiled scopes ran declared
    have start := Pledge.later_empty scopes
    have first := start.block (Pledge.empty_allows definitions) (Run.reaches_end ran)
    have later := first.here.block (Pledge.empty_allows others) reached
    have here := later.retains.classes _ _ found
    refine ⟨id, adds, fun parameters body isMethod only => ?_, ?_⟩
    · obtain ⟨f, isCompiled, isFound⟩ := inside.method_made isMethod only named defaults
      exact methodRuns_of_class notNull later.scopes here isCompiled isFound
    · rintro spelling reference value isProperty rfl only unconstructed
      obtain ⟨c₃, default, c₄, given, kept⟩ := inside.property_kept isProperty only
      obtain ⟨v, held, m₅, m₆, isValue, reachedDefault, gives⟩ := default_evaluated kept evaluated
      refine ⟨v, ⟨c₃, default, c₄, held, m₅, m₆, given, comes m₅ reachedDefault, gives⟩,
        fun plain => ?_⟩
      refine propertyReads_of_class notNull later.scopes here
        (inside.no_constructor unconstructed named defaults) ?_ plain
      rw [Code.ClassDefinition.made, properties_of_foldl]
      exact isValue

/-- A session that has no builtins. -/
def bareSession : Session := .create .default false [] .unlimited .unlimited

/-- A block that calls a function and only then declares it, and a class with a property and a
method of the same name. -/
def callThenDeclarations : List Node :=
  [.returnStatement (some (.functionCall (.string "f") [.integer 1])),
    .functionStatement "f" [.variable "x" false] [.returnStatement (some (.variable "x" false))],
    .classStatement (.string "C")
      [.propertyDefinition (.variable "$f" false) (some (.integer 7)),
        .methodDefinition (.string "f") [] [.returnStatement (some (.integer 2))]]]

/-- Once the declarations have run, each of the three is found under the one name, as the call is
about to. -/
theorem declared_names_are_found_under_one_name :
    ∃ definitions others c₁ c₂ m₁ id,
      selected true callThenDeclarations ⟨[], 0⟩ = .ok (definitions, c₁) ∧
      selected false callThenDeclarations c₁ = .ok (others, c₂) ∧
      (execBlock (invoke 1) programFrame definitions).run (bareSession.boot ⟨[], [], 0⟩) =
        .ok .normal m₁ ∧
      CallRuns "f" [.variable "x" false] [.returnStatement (some (.variable "x" false))] m₁ ∧
      MethodRuns "f" [] [.returnStatement (some (.integer 2))] id m₁ ∧
      PropertyReads "f" (.integer 7) id m₁ := by
  have routines : blockRoutines callThenDeclarations =
      [.functionStatement "f" [.variable "x" false] [.returnStatement (some (.variable "x" false))],
        .methodDefinition (.string "f") [] [.returnStatement (some (.integer 2))]] := rfl
  have onlyFunction : ∀ other ps ss, .functionStatement other ps ss ∈
      blockRoutines callThenDeclarations → normalName other = normalName "f" →
        Node.functionStatement other ps ss = .functionStatement "f" [.variable "x" false]
          [.returnStatement (some (.variable "x" false))] := by
    intro other ps ss member _
    simpa [routines] using member
  have nothingBefore : ∀ n, (bareSession.boot ⟨[], [], 0⟩).OnlyDeclares "f" n := by
    intro n
    constructor
    · intro key f member
      cases member
    · intro data member
      simp [bareSession, Session.create, Session.boot, Session.machine, Store.empty] at member
  obtain ⟨calls, classes⟩ := declared_names_are_found (by decide : "f" ≠ "null")
    (rfl : selected true callThenDeclarations ⟨[], 0⟩ = .ok (_, _)) rfl (List.cons_ne_nil _ _)
    (rfl : (execBlock (invoke 1) programFrame _).run (bareSession.boot ⟨[], [], 0⟩) = .ok .normal _)
    (.start _ _)
  obtain ⟨id, -, methods, properties⟩ := classes _ _ (.tail _ (.tail _ (.head _)))
  have unconstructed : ∀ other ps ss, Node.methodDefinition (.string other) ps ss ∈
      [.propertyDefinition (.variable "$f" false) (some (.integer 7)),
        .methodDefinition (.string "f") [] [.returnStatement (some (.integer 2))]] →
      Text.lowercase other ≠ "__construct" := by
    intro other ps ss member
    obtain ⟨rfl, -⟩ : other = "f" ∧ _ := by simpa using member
    decide +kernel
  obtain ⟨v, gives, reads⟩ := properties "$f" false (some (.integer 7)) (.head _) rfl
    (by simp +contextual) unconstructed
  have isDefault : v = .integer 7 := by
    obtain ⟨_, default, _, held, m, _, compiled, -, evaluated⟩ := gives
    cases compiled
    cases evaluated
    rfl
  subst isDefault
  exact ⟨_, _, _, _, _, id, rfl, rfl, rfl, calls _ _ (.tail _ (.head _)) onlyFunction
    (nothingBefore _), methods _ _ (.tail _ (.head _)) (by simp +contextual), reads rfl⟩

/-- A function, and a class with a property and a method, all of one name and for the number 1. -/
def declaringOne (name : String) : List Node :=
  [.functionStatement name [] [.returnStatement (some (.integer 1))],
    .classStatement (.string "C")
      [.propertyDefinition (.variable name false) (some (.integer 1)),
        .methodDefinition (.string name) [] [.returnStatement (some (.integer 1))]]]

/-- The integer that an expression gives after statements, if it gives one. -/
def integerAfter (statements : List Node) (result : Node) : Except EvalError (Option Int64) :=
  (bareSession.evaluate (.program (statements ++ [.returnStatement (some result)]))).1.map
    fun outcome => match outcome.value with
      | .integer n => some n
      | _ => none

/-- What is declared as null is not found. Nor is a function that stands in the block once more with
a backslash, or that a statement has since defined anew. -/
theorem declared_names_lost :
    integerAfter (declaringOne "null") (.functionCall (.string "null") []) =
        .error (.runtime (.script (.undefinedFunction ""))) ∧
      integerAfter (declaringOne "null")
          (.methodCall (.newExpression (.string "C") []) [⟨.string "null", []⟩]) =
        .error (.runtime (.script (.undefinedMethod "C" ""))) ∧
      integerAfter (declaringOne "null")
          (.objectProperty (.newExpression (.string "C") []) [.string "null"] false) = .ok none ∧
      integerAfter (declaringOne "f" ++
            [.functionStatement "\\f" [] [.returnStatement (some (.integer 2))]])
          (.functionCall (.string "f") []) = .ok (some 2) ∧
      integerAfter (declaringOne "f" ++
            [.functionStatement "g" []
                [.functionStatement "f" [] [.returnStatement (some (.integer 2))]],
              .expressionStatement (.functionCall (.string "g") [])])
          (.functionCall (.string "f") []) = .ok (some 2) := by
  decide +kernel

end TreeScript
