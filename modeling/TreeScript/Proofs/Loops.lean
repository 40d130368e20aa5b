import TreeScript.Proofs.Declared
import TreeScript.Proofs.Loops.Simulation

set_option autoImplicit false

/- Loops never collide. Whatever a session has run, all functions there are were made by the
compiler, with their loops numbered in order; so no loop of a call ever touches another one's place
in the table, and programs run as they do with loops that keep their state to themselves. -/
namespace TreeScript

open Code (Function Stmt Block slotsOf slotsOf_append slotsOf_eq_nil BlockOf Defines)
open Compile (CompiledBlock CompiledFunction PartsCompiled)

/-! Only compiled functions are called -/

namespace Policy

variable {D : Policy}

mutual
/-- Code from the compiler fits where anything may be written to and all that the compiler makes may
be called. -/
theorem fits_of_parts (writable : ∀ i name, D.writable i name)
    (callable : ∀ f, CompiledFunction f → D.callable f)
    (definable : ∀ f, CompiledFunction f → D.definable f) :
    (s : Stmt) → PartsCompiled s → (i : D.Index) → D.Fits i s
  | .defineVariables _, _, _ | .bindArgument _ _, _, _ | .bindThis, _, _
  | .inlineHtml _, _, _ => by
      rw [Fits]
      exact trivial
  | .echo _, _, i | .expression _, _, i | .ret _, _, i => by
      rw [Fits]
      exact fun name _ => writable i name
  | .ifElse _ consequent alternate, parts, i => by
      rw [Fits]
      exact ⟨fun name _ => writable i name,
        fitsAll_of_parts writable callable definable consequent (fun _ => parts.1.parts) i,
        fitsAll_of_parts writable callable definable alternate (fun _ => parts.2.parts) i⟩
  | .foreach _ _ _ _ _ body, parts, i => by
      rw [Fits]
      exact ⟨fun name _ => writable i name, fun name _ => writable i name,
        fun name _ => writable i name,
        fitsAll_of_parts writable callable definable body (fun _ => CompiledBlock.parts parts) i⟩
  | .defineFunction f, parts, _ => by
      rw [Fits]
      exact definable f parts
  | .defineClass _, parts, i => by
      rw [Fits]
      exact ⟨fun name _ => writable i name, fun name _ => writable i name,
        fun method member => callable _ (parts method member)⟩
  | .scoped body, parts, i => by
      rw [Fits]
      exact fun m _ => fitsAll_of_parts writable callable definable body
        (fun _ => (Compile.Origin.readied parts).parts) (D.inner i m)

theorem fitsAll_of_parts (writable : ∀ i name, D.writable i name)
    (callable : ∀ f, CompiledFunction f → D.callable f)
    (definable : ∀ f, CompiledFunction f → D.definable f) :
    (b : Block) → (∀ s ∈ b, PartsCompiled s) → (i : D.Index) → D.FitsAll i b
  | [], _, _ => by
      rw [FitsAll]
      exact trivial
  | s :: rest, parts, i => by
      rw [FitsAll]
      obtain ⟨here, later⟩ := List.forall_mem_cons.mp parts
      exact ⟨fits_of_parts writable callable definable s here i,
        fitsAll_of_parts writable callable definable rest later (D.after i s)⟩
end

end Policy

/-- There is a scope within `outer`, and all functions there are were made by the compiler. -/
structure CompiledOnly (outer : List Scope) (m : Machine) : Prop where
  scopes : ∃ scope, m.scopes = scope :: outer
  functions : ∀ name f, (name, Callable.user f) ∈ m.names.functions → CompiledFunction f
  methods : ∀ data ∈ m.store.classes, ∀ name f, (name, Callable.user f) ∈ data.methods →
    CompiledFunction f

def compiling : Control where
  Index := List Scope
  good := CompiledOnly
  moment _ := True
  writable _ _ := True
  callable := CompiledFunction
  declare i _ := i
  inner _ m := m.scopes
  callee i _ := i
  alike hold alike :=
    ⟨by rw [alike.scopes]; exact hold.scopes, by rw [alike.names]; exact hold.functions,
      by rw [alike.classes]; exact hold.methods⟩
  seen _ := trivial
  lookup _ _ := trivial
  methods hold member := by
    obtain ⟨data, listed, isMethod⟩ := Machine.user_method member
    exact hold.methods data listed _ _ isMethod
  functions hold member := hold.functions _ _ member
  scope hold := by
    obtain ⟨scope, isScope⟩ := hold.scopes
    exact ⟨scope, _, isScope⟩
  undeclare hold := hold
  newClass hold compiled := by
    refine ⟨hold.scopes, hold.functions, fun data member => ?_⟩
    rcases Array.mem_push.mp member with old | rfl
    · exact hold.methods data old
    · exact compiled
  rebind name s hold isScope := by
    obtain ⟨current, isCurrent⟩ := hold.scopes
    obtain ⟨-, rfl⟩ := List.cons.inj (isScope.symm.trans isCurrent)
    exact ⟨⟨_, rfl⟩, hold.functions, hold.methods⟩
  extend hold isScope _ := by
    obtain ⟨current, isCurrent⟩ := hold.scopes
    obtain ⟨-, rfl⟩ := List.cons.inj (isScope.symm.trans isCurrent)
    exact ⟨⟨_, rfl⟩, hold.functions, hold.methods⟩
  defineFunction hold compiled := by
    refine ⟨hold.scopes, fun key f member => ?_, hold.methods⟩
    rcases Assoc.mem_set member with old | isNew
    · exact hold.functions key f old
    · exact Callable.user.inj isNew ▸ compiled
  defineClass _ _ hold := ⟨hold.scopes, hold.functions, hold.methods⟩
  push hold := ⟨⟨[], rfl⟩, hold.functions, hold.methods⟩
  pop before after := by
    obtain ⟨scope, isScope⟩ := after.scopes
    refine ⟨?_, after.functions, after.methods⟩
    simpa [isScope] using before.scopes
  enter hold _ := ⟨hold.scopes, hold.functions, hold.methods⟩
  leave _ after := ⟨after.scopes, after.functions, after.methods⟩
  body _ compiled := Policy.fitsAll_of_parts (fun _ _ => trivial) (fun _ compiled => compiled)
    (fun _ compiled => compiled) _ (fun _ => (Compile.Origin.function compiled rfl).parts) _

/-- A guard that lets compiled functions pass is never met. -/
theorem guardedInvoke_serves (levels : Nat) :
    compiling.discipline.Serves (guardedInvoke levels) := by
  induction levels with
  | zero => exact Discipline.invoke_serves 0
  | succ levels ih =>
      intro i e f frame compiled known
      rw [guardedInvoke_of_compiled levels compiled]
      exact Discipline.inCall_meets f.loopSlots fun m good =>
        Discipline.callBody_meets ih known (compiling.discipline.body good compiled)

/-! Programs -/

namespace Session

variable {s : Session} {tree : Node} {p : Code.Program}

theorem parts_code (compiled : Compile.program tree = .ok p) {stmt : Stmt}
    (member : stmt ∈ p.code) : PartsCompiled stmt := by
  obtain ⟨statements, -, done⟩ := Compile.program_compiled compiled
  rcases List.mem_append.mp member with body | last
  · rcases List.mem_append.mp body with declared | body
    · unfold Code.declarations at declared
      split at declared
      · cases declared
      · obtain rfl := List.mem_singleton.mp declared
        exact trivial
    · exact CompiledBlock.parts ⟨statements, _, _, done⟩ body
  · obtain rfl := List.mem_singleton.mp last
    exact trivial

theorem slotsOf_code (compiled : Compile.program tree = .ok p) :
    slotsOf p.code = List.range' 0 p.loopSlots := by
  have declared : slotsOf (Code.declarations p.locals) = [] := by
    unfold Code.declarations
    split <;> rfl
  have last : slotsOf [.ret (some .null)] = [] := rfl
  rw [Code.Program.code, Code.Program.statements, slotsOf_append, slotsOf_append, declared, last,
    (Compile.slots_numbered compiled).1, List.range_eq_range']
  simp

/-- What one program leaves to the next: functions that the compiler has made. -/
structure LeavesCompiled (names : Namespace) (st : Store) : Prop where
  functions : ∀ name f, (name, Callable.user f) ∈ names.functions → CompiledFunction f
  methods : ∀ data ∈ st.classes, ∀ name f, (name, Callable.user f) ∈ data.methods →
    CompiledFunction f

theorem LeavesCompiled.withBuiltins (leaves : LeavesCompiled s.names s.store) :
    LeavesCompiled s.withBuiltins.names s.withBuiltins.store := by
  rcases s.names_withBuiltins with ⟨names, store⟩ | ⟨names, store⟩ <;> rw [names, store]
  · exact leaves
  · refine install_keeps (P := LeavesCompiled) ?_ ?_ leaves
    · intro n st b leaves
      refine ⟨fun name f member => ?_, leaves.methods⟩
      rcases Assoc.mem_set member with old | isNew
      · exact leaves.functions name f old
      · cases isNew
    · intro n st data builtin leaves
      refine ⟨leaves.functions, fun other member name f isMethod => ?_⟩
      rcases Array.mem_push.mp member with old | rfl
      · exact leaves.methods other old name f isMethod
      · exact absurd isMethod (no_user_methods builtin name f)

theorem boot_compiledOnly (leaves : LeavesCompiled s.names s.store) :
    CompiledOnly [] (s.withBuiltins.boot p) :=
  ⟨⟨_, rfl⟩, leaves.withBuiltins.functions, leaves.withBuiltins.methods⟩

/-- With the functions of a session made by the compiler, compiled code whose loops have the first
numbers runs alike with the table and without, and the table is used as it should be. -/
theorem block_tracks (leaves : LeavesCompiled s.names s.store) {b : Block}
    (parts : ∀ stmt ∈ b, PartsCompiled stmt) (slots : slotsOf b = List.range' 0 p.loopSlots) :
    ∃ g, Tracks g (runBody b) (Own.runBody b) (s.withBuiltins.boot p) ∧
      (Run.left (g.run (s.withBuiltins.boot p))).loops = blank p.loopSlots := by
  let m := s.withBuiltins.boot p
  let frame : Frame := ⟨[], none, []⟩
  let guarded := execBlock (guardedInvoke m.callLimit) frame b
  have kept : compiling.discipline.Keeps [] m.store.extent compiling.discipline.KnownFlow guarded :=
    Discipline.execBlock_meets (guardedInvoke_serves _) b (compiling.holds_any _ frame)
      (Policy.fitsAll_of_parts (fun _ _ => trivial) (fun _ compiled => compiled)
        (fun _ compiled => compiled) _ parts _)
  have ended := (kept.holds (boot_compiledOnly leaves) (le_refl _)).sound.2
  rcases execBlock_agree (invoke_agree m.callLimit) frame b 0 p.loopSlots slots m
    (room_blank p.loopSlots) with ⟨m', refused⟩ | ⟨tracks, table⟩
  · rw [refused] at ended
    exact absurd rfl ended.2.2
  · refine ⟨guarded, ⟨tracks.same, tracks.own, tracks.depth, ?_⟩, table⟩
    exact .here ⟨rfl, rfl⟩ (.same _) tracks.passes

theorem code_tracks (leaves : LeavesCompiled s.names s.store)
    (compiled : Compile.program tree = .ok p) :
    ∃ g, Tracks g (runBody p.code) (Own.runBody p.code) (s.withBuiltins.boot p) ∧
      (Run.left (g.run (s.withBuiltins.boot p))).loops = blank p.loopSlots :=
  block_tracks leaves (fun _ => parts_code compiled) (slotsOf_code compiled)

/-- The statements of a program, without its last one, run alike as well. -/
theorem statements_own (leaves : LeavesCompiled s.names s.store)
    (compiled : Compile.program tree = .ok p) :
    (Own.runBody p.statements).run (s.withBuiltins.machine s.withBuiltins.names 0) =
      Run.after (·.withLoops []) ((runBody p.statements).run (s.withBuiltins.boot p)) := by
  have last : slotsOf [.ret (some .null)] = [] := rfl
  have slots := slotsOf_code compiled
  rw [Code.Program.code, slotsOf_append, last, List.append_nil] at slots
  obtain ⟨g, tracks, -⟩ := block_tracks leaves
    (fun _ member => parts_code compiled (List.mem_append_left _ member)) slots
  exact (tracks.own []).trans (congrArg _ tracks.same.symm)

theorem executeOwn_eq (leaves : LeavesCompiled s.names s.store)
    (compiled : Compile.program tree = .ok p) : s.executeOwn p = s.execute p := by
  obtain ⟨g, tracks, -⟩ := code_tracks leaves compiled
  have own : (Own.runBody p.code).run (s.withBuiltins.machine s.withBuiltins.names 0) =
      Run.after (·.withLoops []) ((runBody p.code).run (s.withBuiltins.boot p)) :=
    (tracks.own []).trans (congrArg _ tracks.same.symm)
  simp only [executeOwn, execute, own]
  cases (runBody p.code).run (s.withBuiltins.boot p) <;> rfl

theorem evaluateOwn_eq (leaves : LeavesCompiled s.names s.store) (tree : Node) :
    s.evaluateOwn tree = s.evaluate tree := by
  cases tree with
  | program statements =>
      simp only [evaluateOwn, evaluate]
      cases compiled : Compile.program (.program statements) with
      | ok p => exact executeOwn_eq leaves compiled
      | error e => rfl
  | _ => rfl

theorem LeavesCompiled.evaluate (leaves : LeavesCompiled s.names s.store) (tree : Node) :
    LeavesCompiled (s.evaluate tree).2.names (s.evaluate tree).2.store := by
  rcases s.evaluate_cases tree with ⟨-, same, -⟩ | ⟨p, compiled, -, runs⟩
  · rw [same]
    exact leaves
  · have fits : compiling.discipline.FitsAll ([] : List Scope) p.code :=
      Policy.fitsAll_of_parts (fun _ _ => trivial) (fun _ compiled => compiled)
        (fun _ compiled => compiled) _ (fun _ => parts_code compiled) _
    obtain ⟨-, -, m, good, ended⟩ := execute_keeps (D := compiling.discipline)
      (boot_compiledOnly leaves) fits
    rw [runs]
    rcases ended with same | ⟨f, same⟩ <;> rw [same]
    · rw [names_resume]
      exact ⟨good.functions, good.methods⟩
    · obtain ⟨-, names, store⟩ := report_keeps (s.withBuiltins.resume m) f
      rw [names, store, names_resume]
      exact ⟨good.functions, good.methods⟩

/-! Sessions -/

/-- The outcomes of trees that are evaluated one after the other, and the session they leave. -/
def outcomes (evaluate : Session → Node → Except EvalError Outcome × Session) (s : Session) :
    List Node → List (Except EvalError Outcome) × Session
  | [] => ([], s)
  | tree :: rest =>
      let (outcome, next) := evaluate s tree
      let (more, last) := outcomes evaluate next rest
      (outcome :: more, last)

theorem leavesCompiled_create (config : Config) (builtins : Bool) (stdin : List String)
    (stdout stderr : Output) :
    LeavesCompiled (create config builtins stdin stdout stderr).names
      (create config builtins stdin stdout stderr).store := by
  rw [names_create]
  exact ⟨by simp [Namespace.empty], by simp [create, Store.empty]⟩

theorem LeavesCompiled.outcomes (leaves : LeavesCompiled s.names s.store) (trees : List Node) :
    s.outcomes evaluateOwn trees = s.outcomes Session.evaluate trees ∧
      LeavesCompiled (s.outcomes Session.evaluate trees).2.names
        (s.outcomes Session.evaluate trees).2.store := by
  induction trees generalizing s with
  | nil => exact ⟨rfl, leaves⟩
  | cons tree rest ih =>
      obtain ⟨same, later⟩ := ih (leaves.evaluate tree)
      refine ⟨?_, later⟩
      simp only [Session.outcomes, evaluateOwn_eq leaves tree, same]

/-- The loops of every body that compiles are numbered from 0 in the order of its code, functions
and methods apart. So, whatever was run before, the table of each call stays as long as it was made,
a loop begins only in a free place above those under way, only the innermost goes on or is
forgotten, and the outcomes and the session are those of loops that keep their state to
themselves. -/
theorem loops_never_collide (config : Config) (builtins : Bool) (stdin : List String)
    (stdout stderr : Output) (trees : List Node) (tree : Node) (p : Code.Program)
    (compiled : Compile.program tree = .ok p) :
    (slotsOf p.body = List.range p.loopSlots ∧
      ∀ b s f, BlockOf p.body b → s ∈ b → Defines s f →
        slotsOf f.body = List.range f.loopSlots) ∧
    Passes 0 (blank p.loopSlots)
      ((runBody p.code).trace
        (((create config builtins stdin stdout stderr).outcomes evaluate trees).2.withBuiltins.boot
          p))
      (blank p.loopSlots) ∧
    (create config builtins stdin stdout stderr).outcomes evaluateOwn (trees ++ [tree]) =
      (create config builtins stdin stdout stderr).outcomes evaluate (trees ++ [tree]) := by
  have start := leavesCompiled_create config builtins stdin stdout stderr
  refine ⟨Compile.slots_numbered compiled, ?_, (start.outcomes (trees ++ [tree])).1⟩
  obtain ⟨g, tracks, table⟩ := code_tracks (start.outcomes trees).2 compiled
  have passes := tracks.passes
  rwa [table] at passes

/-- `function f($a) { foreach ($a as $v) { foreach ($a as $w) echo $w; } }
foreach ([1, 2] as $x) { f([$x]); foreach ([3] as $y) echo $y; }` -/
def loopsInCall : Node := .program [
  .functionStatement "f" [.variable "a" false] [
    .foreachStatement (.variable "a" false) none (.variable "v" false) [
      .foreachStatement (.variable "a" false) none (.variable "w" false) [
        .echoStatement (.variable "w" false)]]],
  .foreachStatement (.arrayLiteral [.integer 1, .integer 2]) none (.variable "x" false) [
    .expressionStatement (.functionCall (.string "f") [.arrayLiteral [.variable "x" false]]),
    .foreachStatement (.arrayLiteral [.integer 3]) none (.variable "y" false) [
      .echoStatement (.variable "y" false)]]]

/-- Two loops within one another, the outer of which calls a function with two more. -/
theorem loops_never_collide_in_call :
    ∃ p, Compile.program loopsInCall = .ok p ∧ slotsOf p.body = [0, 1] ∧
      Passes 0 (blank 2)
        ((runBody p.code).trace
          ((create .default false [] .unlimited .unlimited).withBuiltins.boot p)) (blank 2) ∧
      (create .default false [] .unlimited .unlimited).outcomes evaluateOwn [loopsInCall] =
        (create .default false [] .unlimited .unlimited).outcomes evaluate [loopsInCall] ∧
      ((create .default false [] .unlimited .unlimited).outcomes evaluate
        [loopsInCall]).2.stdout.text = "1323" := by
  refine ⟨_, rfl, rfl, ?_⟩
  obtain ⟨-, passes, same⟩ := loops_never_collide .default false [] .unlimited .unlimited []
    loopsInCall _ rfl
  exact ⟨passes, same, by decide +kernel⟩

end Session
end TreeScript
