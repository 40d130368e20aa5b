import TreeScript.Proofs.Compile.Grammar

set_option autoImplicit false

/- Where the blocks of compiled code come from. Each was compiled as a block, or is what a function
puts around the block of its statements; so what holds of every block the compiler returns holds
throughout compiled code. -/
namespace TreeScript

namespace Code

/-- A statement defines a function, or a class with it as a method. -/
inductive Defines : Stmt → Function Stmt → Prop
  | function (f) : Defines (.defineFunction f) f
  | method {definition name f} (declared : (name, f) ∈ definition.methods) :
      Defines (.defineClass definition) f

/-- The blocks of a piece of code at any depth, those of the functions it defines included. -/
inductive BlockOf (code : Block) : Block → Prop
  | whole : BlockOf code code
  | consequent {b condition first second} (outer : BlockOf code b)
      (member : .ifElse condition first second ∈ b) : BlockOf code first
  | alternate {b condition first second} (outer : BlockOf code b)
      (member : .ifElse condition first second ∈ b) : BlockOf code second
  | loop {b slot array key value byReference body} (outer : BlockOf code b)
      (member : .foreach slot array key value byReference body ∈ b) : BlockOf code body
  | scope {b body} (outer : BlockOf code b) (member : .scoped body ∈ b) : BlockOf code body
  | function {b s f} (outer : BlockOf code b) (member : s ∈ b) (defined : Defines s f) :
      BlockOf code f.body

namespace Stmt

/-- The statement brings a function or a class into being. -/
def isDefinition : Stmt → Bool
  | .defineFunction _ | .defineClass _ => true
  | _ => false

/-- The statement readies a body: it declares the locals, or binds the receiver or an argument. -/
def isPrologue : Stmt → Bool
  | .defineVariables _ | .bindArgument .. | .bindThis => true
  | _ => false

end Stmt
end Code

namespace Compile

open Code (Expr Place Stmt Block Function Defines BlockOf)

/-- The block is what the compiler makes of some statements. -/
def CompiledBlock (b : Block) : Prop := ∃ statements c c', block statements c = .ok (b, c')

/-- The function is put together from statements that were compiled as a body of their own. -/
inductive CompiledFunction : Function Stmt → Prop
  | assembled {statements body context} (name parameters isMethod)
      (compiled : block statements (.ofParameters parameters) = .ok (body, context)) :
      CompiledFunction (assembleFunction name parameters isMethod body context)

/-- A block of statements after what readies their body. -/
def Readied (b : Block) : Prop :=
  ∃ prologue statements, b = prologue ++ statements ∧ (∀ s ∈ prologue, s.isPrologue = true) ∧
    CompiledBlock statements

/-- The blocks and functions directly in a statement are compiled ones. -/
def PartsCompiled : Stmt → Prop
  | .ifElse _ first second => CompiledBlock first ∧ CompiledBlock second
  | .foreach _ _ _ _ _ body => CompiledBlock body
  | .scoped body => Readied body
  | .defineFunction f => CompiledFunction f
  | .defineClass definition => ∀ method ∈ definition.methods, CompiledFunction method.2
  | _ => True

/-- The body of a function is one scope: what readies it, and its statements. -/
theorem assembleFunction_body (name : String) (parameters : List String) (isMethod : Bool)
    (statements : Block) (context : Context) : ∃ prologue,
      (assembleFunction name parameters isMethod statements context).body =
        [.scoped (prologue ++ statements)] ∧ ∀ s ∈ prologue, s.isPrologue = true := by
  refine ⟨_, rfl, fun s member => ?_⟩
  rcases List.mem_append.mp member with early | bound
  · rcases List.mem_append.mp early with declared | received
    · unfold Code.declarations at declared
      split at declared <;> simp_all [Stmt.isPrologue]
    · split at received <;> simp_all [Stmt.isPrologue]
  · obtain ⟨_, _, rfl⟩ := List.mem_mapIdx.mp bound
    rfl

theorem CompiledFunction.body {f : Function Stmt} (compiled : CompiledFunction f) :
    ∃ prologue statements parameters body context,
      f.body = [.scoped (prologue ++ body)] ∧ f.loopSlots = context.loops ∧
        (∀ s ∈ prologue, s.isPrologue = true) ∧
        block statements (.ofParameters parameters) = .ok (body, context) := by
  cases compiled with
  | @assembled statements body context name parameters isMethod compiled =>
      obtain ⟨prologue, isBody, readies⟩ :=
        assembleFunction_body name parameters isMethod body context
      exact ⟨prologue, statements, parameters, body, context, isBody, rfl, readies, compiled⟩

theorem joined_compiled (statements : List Node) :
    Grants CompiledBlock (joined (selected true statements) (selected false statements)) :=
  ⟨fun done => ⟨statements, _, _, done⟩⟩

theorem inBody_compiled (parameters : List String) (statements : List Node) :
    Grants (fun result => block statements (.ofParameters parameters) = .ok result)
      (inBody parameters (joined (selected true statements) (selected false statements))) := by
  refine ⟨fun {c result c'} done => ?_⟩
  simp only [inBody] at done
  cases ran : joined (selected true statements) (selected false statements)
      (Context.ofParameters parameters) with
  | error e =>
      rw [ran] at done
      cases done
  | ok inner =>
      rw [ran] at done
      cases done
      exact ran

/-- The body around is as it was. -/
theorem inBody_context {α : Type} {parameters : List String} {m : CompileM α} {c c' : Context}
    {result : α × Context} (done : inBody parameters m c = .ok (result, c')) : c' = c := by
  simp only [inBody] at done
  cases ran : m (Context.ofParameters parameters) with
  | error e =>
      rw [ran] at done
      cases done
  | ok inner =>
      rw [ran] at done
      cases done
      rfl

theorem anything_granted {α : Type} (m : CompileM α) : Grants (fun _ => True) m :=
  ⟨fun _ => trivial⟩

theorem classMembers_compiled (members : List Node) {found : Members}
    (already : ∀ method ∈ found.methods, CompiledFunction method.2) :
    Grants (fun found => ∀ method ∈ found.methods, CompiledFunction method.2)
      (classMembers found members) := by
  induction members generalizing found with
  | nil => exact .pure already
  | cons n rest ih =>
      cases n with
      | propertyDefinition target value =>
          cases target with
          | «variable» name reference =>
              rw [classMembers]
              exact (anything_granted _).bind fun _ _ => ih already
          | _ =>
              rw [classMembers]
              · exact .throw _
              · intros; contradiction
      | methodDefinition name parameters statements =>
          cases name with
          | string name =>
              rw [classMembers]
              refine (anything_granted _).bind fun ps _ =>
                (inBody_compiled ps statements).bind fun result compiled => ih ?_
              intro method member
              rcases Assoc.mem_set member with old | isNew
              · exact already method old
              · rw [isNew]
                exact .assembled name ps true compiled
          | _ =>
              rw [classMembers]
              · exact .throw _
              · intros; contradiction
      | _ =>
          rw [classMembers]
          · exact .throw _
          all_goals intros; contradiction

/-- A statement is compiled from its parts, and is a definition where the node is a declaration. -/
theorem statement_compiled (n : Node) :
    Grants (fun s => PartsCompiled s ∧ s.isDefinition = n.isDeclaration) (statement n) := by
  cases n with
  | echoStatement e | expressionStatement e | returnStatement e =>
      rw [statement]
      exact (anything_granted _).bind fun _ _ => .pure ⟨trivial, rfl⟩
  | inlineHtmlStatement html =>
      rw [statement]
      exact .pure ⟨trivial, rfl⟩
  | ifStatement condition consequent alternate =>
      rw [statement]
      exact (anything_granted _).bind fun _ _ => (joined_compiled consequent).bind fun _ first =>
        (joined_compiled alternate).bind fun _ second => .pure ⟨⟨first, second⟩, rfl⟩
  | foreachStatement array key value statements =>
      rw [statement]
      exact (anything_granted _).bind fun _ _ => (anything_granted _).bind fun _ _ =>
        (anything_granted _).bind fun _ _ => (anything_granted _).bind fun _ _ =>
          (joined_compiled statements).bind fun _ body => .pure ⟨body, rfl⟩
  | functionStatement name parameters statements =>
      rw [statement]
      exact (anything_granted _).bind fun ps _ => (inBody_compiled ps statements).bind
        fun _ compiled => .pure ⟨.assembled name ps false compiled, rfl⟩
  | classStatement className members =>
      rw [statement]
      exact (anything_granted _).bind fun _ _ => (classMembers_compiled members (by simp)).bind
        fun _ compiled => .pure ⟨compiled, rfl⟩
  | _ =>
      rw [statement]
      · exact .throw _
      all_goals intros; contradiction

theorem selected_compiled (declarations : Bool) (nodes : List Node) :
    Grants (fun b => ∀ s ∈ b, PartsCompiled s ∧ s.isDefinition = declarations)
      (selected declarations nodes) := by
  induction nodes with
  | nil => exact .pure (by simp)
  | cons n rest ih =>
      rw [selected]
      split
      · next here =>
          exact (statement_compiled n).bind fun _ first => ih.bind fun _ others =>
            .pure (List.forall_mem_cons.mpr ⟨here ▸ first, others⟩)
      · exact ih

/-- A compiled block is its definitions followed by its other statements. -/
theorem CompiledBlock.split {b : Block} (compiled : CompiledBlock b) :
    ∃ definitions others, b = definitions ++ others ∧
      (∀ s ∈ definitions, PartsCompiled s ∧ s.isDefinition = true) ∧
      ∀ s ∈ others, PartsCompiled s ∧ s.isDefinition = false := by
  obtain ⟨statements, c, c', done⟩ := compiled
  obtain ⟨definitions, c₁, ran, done⟩ := bind_eq_ok.mp done
  obtain ⟨others, c₂, ran', done⟩ := bind_eq_ok.mp done
  cases done
  exact ⟨definitions, others, rfl, (selected_compiled true statements).holds ran,
    (selected_compiled false statements).holds ran'⟩

theorem CompiledBlock.parts {b : Block} (compiled : CompiledBlock b) {s : Stmt} (member : s ∈ b) :
    PartsCompiled s := by
  obtain ⟨definitions, others, rfl, first, second⟩ := compiled.split
  rcases List.mem_append.mp member with early | late
  · exact (first s early).1
  · exact (second s late).1

/-- A block of compiled code: one that was compiled, the same after what readies its body, or the
body of a function. -/
inductive Origin (b : Block) : Prop
  | compiled (compiled : CompiledBlock b)
  | readied (readied : Readied b)
  | function {f} (compiled : CompiledFunction f) (isBody : b = f.body)

theorem Origin.parts {b : Block} (origin : Origin b) {s : Stmt} (member : s ∈ b) :
    PartsCompiled s := by
  cases origin with
  | compiled compiled => exact compiled.parts member
  | readied readied =>
      obtain ⟨prologue, statements, rfl, readies, compiled⟩ := readied
      rcases List.mem_append.mp member with early | late
      · have isPrologue := readies s early
        cases s <;> trivial
      · exact compiled.parts late
  | function compiled isBody =>
      obtain ⟨prologue, statements, _, body, _, isScope, -, readies, compiled⟩ := compiled.body
      rw [isBody, isScope] at member
      rw [List.mem_singleton.mp member]
      exact ⟨prologue, body, rfl, readies, statements, _, _, compiled⟩

theorem Origin.defines {b : Block} (origin : Origin b) {s : Stmt} {f : Function Stmt}
    (member : s ∈ b) (defined : Defines s f) : CompiledFunction f := by
  have parts := origin.parts member
  cases defined with
  | function => exact parts
  | method declared => exact parts _ declared

/-- Every block of what a block compiles to has its origin in the compiler. -/
theorem origin_of_blockOf {code b : Block} (compiled : CompiledBlock code)
    (inside : BlockOf code b) : Origin b := by
  induction inside with
  | whole => exact .compiled compiled
  | consequent _ member outer => exact .compiled (outer.parts member).1
  | alternate _ member outer => exact .compiled (outer.parts member).2
  | loop _ member outer => exact .compiled (outer.parts member)
  | scope _ member outer => exact .readied (outer.parts member)
  | function _ member defined outer => exact .function (outer.defines member defined) rfl

theorem program_compiled {t : Node} {p : Code.Program} (compiled : program t = .ok p) :
    ∃ statements, t = .program statements ∧
      block statements ⟨[], 0⟩ = .ok (p.body, ⟨p.locals, p.loopSlots⟩) := by
  cases t with
  | program statements =>
      refine ⟨statements, rfl, ?_⟩
      simp only [program, StateT.run] at compiled
      cases ran : block statements ⟨[], 0⟩ with
      | error e =>
          rw [ran] at compiled
          cases compiled
      | ok result =>
          rw [ran] at compiled
          cases compiled
          rfl
  | _ => cases compiled

end Compile
end TreeScript
