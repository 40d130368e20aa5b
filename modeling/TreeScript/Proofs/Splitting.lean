import TreeScript.Proofs.Compile.Contexts
import TreeScript.Proofs.Pairing.Junction
import TreeScript.Proofs.Pairing.Sessions
import TreeScript.Proofs.Termination

set_option autoImplicit false

/- Splitting a program does not matter. One whose later statements declare no function or class may
as well be run as two, one after the other: the variables of the second part are declared later
then, and its loops have other numbers, but neither shows. -/
namespace TreeScript

open Code (Stmt Block SameCode unnumberedAll)
open Compile (AllCovered addLocal)

/-! Loops that keep their state to themselves need no numbers -/

namespace Own

mutual
theorem execStmt_unnumbered (user : UserCall) : (s : Stmt) → (frame : Frame) →
    execStmt user frame s.unnumbered = execStmt user frame s
  | .ifElse condition consequent alternate, frame => by
      rw [Stmt.unnumbered, execStmt, execStmt]
      simp only [execBlock_unnumbered]
  | .foreach slot array key value byReference body, frame => by
      rw [Stmt.unnumbered, execStmt, execStmt]
      simp only [execBlock_unnumbered]
  | .scoped body, frame => by
      rw [Stmt.unnumbered, execStmt, execStmt, execBlock_unnumbered]
  | .defineVariables _, _ | .bindArgument _ _, _ | .bindThis, _ | .echo _, _ | .inlineHtml _, _
  | .expression _, _ | .ret _, _ | .defineFunction _, _ | .defineClass _, _ => by
      rw [Stmt.unnumbered] <;> intros <;> contradiction

theorem execBlock_unnumbered (user : UserCall) : (b : Block) → (frame : Frame) →
    execBlock user frame (unnumberedAll b) = execBlock user frame b
  | [], _ => by rw [unnumberedAll]
  | s :: rest, frame => by
      rw [unnumberedAll, execBlock, execBlock, execStmt_unnumbered]
      simp only [execBlock_unnumbered]
end

theorem execBlock_eq_of_sameCode {b b' : Block} (same : SameCode b b') (user : UserCall)
    (frame : Frame) : execBlock user frame b = execBlock user frame b' := by
  rw [← execBlock_unnumbered, same, execBlock_unnumbered]

/-- The last statement of a program returns null and changes nothing. -/
theorem run_retNull (user : UserCall) (frame : Frame) (m : Machine) :
    (execBlock user frame [.ret (some .null)]).run m = .ok (.returned .null) m := by
  have copied : (copyValue frame.held .null).run m = .ok .null m :=
    Run.run_copyValue (Store.copy_plain (fun _ => Value.noConfusion) m.store)
  have given : (returnValue user frame (some .null)).run m = .ok .null m := by
    rw [returnValue, evalExpr]
    rfl
  have returned : (execStmt user frame (.ret (some .null))).run m = .ok (.returned .null) m := by
    rw [execStmt_flat user frame rfl, TreeScript.execStmt, Run.run_bind given, Run.run_bind copied]
    rfl
  rw [execBlock, Run.run_bind returned]
  rfl

/-- The frame of a whole program. -/
abbrev outermost : Frame := ⟨[], none, []⟩

theorem run_runBody (b : Block) (m : Machine) :
    (runBody b).run m = (execBlock (invoke m.callLimit) outermost b).run m := rfl

/-- The first part of a block has run to its end on a machine that had declared only its locals.
From there the second part ends as the whole block does, which declares all locals before it
begins. -/
theorem split_alike {ρ : Pairing} {levels : Nat} {m n : Machine} {locals added : List String}
    {body tail : Block} {last : Code.Program} (paired : m.Paired ρ [.level] m)
    (covered : AllCovered locals body) (covered' : AllCovered last.locals last.body)
    (isTail : SameCode tail last.body) (isLocals : last.locals = added.foldl addLocal [])
    (ended : (execBlock (invoke levels) outermost (Code.declarations locals ++ body)).run m =
      .ok .normal n) :
    (∃ scope, n.scopes = [scope]) ∧ ∃ ρ₁ : Pairing, ρ₁.EndAlike [.level] Same
      ((execBlock (invoke levels) outermost (Code.declarations (added.foldl addLocal locals) ++
        (body ++ tail) ++ [.ret (some .null)])).run m)
      ((execBlock (invoke levels) outermost last.code).run n) := by
  have frames : ∀ ρ, Frame.Paired ρ outermost outermost := fun _ => ⟨rfl, rfl, .nil⟩
  obtain ⟨scope, _, isScope, -, -⟩ := paired.scope
  -- the first parts, with the names of the second declared ahead
  obtain ⟨ρ₁, both, listed, parted⟩ := paired.part locals added
  have apart : Apart (.ahead both (Scope.fresh both added)) locals := fun name member ahead =>
    Scope.fresh_apart name ahead (listed name member)
  have first := execBlock_alike (frames ρ₁) (fun s member {_} frames =>
    execStmt_alike (invoke_alike levels) apart frames (covered s member)) _ _ parted
  rw [run_append (run_declarations isScope locals)] at ended
  rw [ended] at first
  rw [List.append_assoc, List.append_assoc, run_append (run_declarations isScope _)]
  generalize ran : (execBlock (invoke levels) outermost body).run _ = result at first
  cases first with
  | @ok ρ₂ flow _ n' _ _ machines same =>
      obtain rfl := same
      rw [run_append ran]
      -- the second parts, once the names are declared in both
      obtain ⟨ρ₃, met⟩ := machines.meet
      obtain ⟨_, scope', -, isScope', -⟩ := machines.scope
      have sameCode : SameCode (tail ++ [.ret (some .null)]) (last.body ++ [.ret (some .null)]) := by
        rw [SameCode, Code.unnumberedAll_append, Code.unnumberedAll_append, isTail]
      have rest : ∀ s ∈ last.body ++ [.ret (some .null)], Compile.Covered last.locals s :=
        List.forall_mem_append.mpr ⟨covered', List.forall_mem_singleton.mpr .retNull⟩
      rw [← isLocals] at met
      rw [Code.Program.code, Code.Program.statements, List.append_assoc,
        run_append (run_declarations isScope' _), execBlock_eq_of_sameCode sameCode]
      exact ⟨⟨scope', isScope'⟩, ρ₃, execBlock_alike (frames ρ₃) (fun s member {_} frames =>
        execStmt_alike (invoke_alike levels) (fun _ _ => List.not_mem_nil) frames
          (rest s member)) _ _ met⟩

end Own

/-! From one program to the next -/

/-- A later value of a key takes the place of an earlier one. -/
theorem Assoc.set_set {α β : Type} [BEq α] [LawfulBEq α] (entries : List (α × β)) (key : α)
    (v w : β) : set (set entries key v) key w = set entries key w := by
  induction entries with
  | nil => simp [set]
  | cons entry rest ih =>
      obtain ⟨other, u⟩ := entry
      by_cases same : key = other
      · simp [set, same]
      · simp [set, same, ih]

/-- Statements that run to their end leave as many calls under way, and the same limit. -/
theorem resumes_of_run {b : Block} {m n : Machine} {flow : Flow}
    (ran : (runBody b).run m = .ok flow n) : m.Resumes n := by
  have settles : Settles m.callLimit fun r => r.execBlock Own.outermost b :=
    (execBlock_uniform _ b).settles (call_settles _)
  obtain ⟨-, resumes⟩ := settles m (Nat.le_add_left _ _)
  simp only [Recursion.bounded_execBlock] at resumes
  have isRun : (execBlock (invoke m.callLimit) Own.outermost b).run m = .ok flow n := ran
  rwa [isRun] at resumes

namespace Session

variable {s : Session}

theorem resume_resume (s : Session) (m m' : Machine) : (s.resume m).resume m' = s.resume m' := by
  simp only [resume, Assoc.set_set]

/-- A session that has run a program has its builtins. -/
theorem withBuiltins_resume (s : Session) (m : Machine) :
    (s.withBuiltins.resume m).withBuiltins = s.withBuiltins.resume m := by
  have ready : (s.withBuiltins.resume m).awaitsBuiltins = false := s.awaitsBuiltins_withBuiltins
  have opened : Namespaces.opened (s.withBuiltins.resume m).namespaces
      (s.withBuiltins.resume m).config.rootPath =
        (m.names, (s.withBuiltins.resume m).namespaces) := by
    simp [Namespaces.opened, resume]
  rw [withBuiltins, opened]
  exact if_neg (by simp [ready])

/-- The next program begins with the machine that the one before has left. -/
theorem machine_resume {m : Machine} {scope : Scope} (isScope : m.scopes = [scope])
    (depth : m.callDepth = 0) (limit : m.callLimit = s.config.callLimit) (loops : m.loops = []) :
    (s.resume m).machine (s.resume m).names 0 = m := by
  obtain ⟨st, scopes, names, stdin, stdout, callDepth, callLimit, table⟩ := m
  subst isScope depth limit loops
  rw [names_resume]
  rfl

/-- Whether the program of the statements comes to its end in the session: it compiles, and it
neither fails nor returns. -/
def completes (s : Session) (statements : List Node) : Bool :=
  match Compile.program (.program statements) with
  | .error _ => false
  | .ok p =>
      match (runBody p.statements).run (s.withBuiltins.boot p) with
      | .ok .normal _ => true
      | _ => false

theorem completes_iff (statements : List Node) :
    s.completes statements = true ↔ ∃ p m, Compile.program (.program statements) = .ok p ∧
      (runBody p.statements).run (s.withBuiltins.boot p) = .ok .normal m := by
  unfold completes
  cases Compile.program (.program statements) with
  | error e => simp
  | ok p =>
      cases ran : (runBody p.statements).run (s.withBuiltins.boot p) with
      | error f m => simp [ran]
      | ok flow m => cases flow <;> simp [ran]

/-- What a run leaves takes the place of what the one before it has left. -/
theorem conclude_resume (s : Session) (m : Machine)
    (ended : EStateM.Result Fault Machine Flow) :
    (s.resume m).conclude ended = s.conclude ended := by
  cases ended with
  | ok flow n => simp only [conclude, resume_resume]
  | error f n => simp only [conclude, resume_resume]

theorem evaluate_conclude (orderly : s.Orderly) {statements : List Node} {p : Code.Program}
    (compiled : Compile.program (.program statements) = .ok p) :
    s.evaluate (.program statements) = s.withBuiltins.conclude
      ((Own.runBody p.code).run (s.withBuiltins.machine s.withBuiltins.names 0)) := by
  rw [← evaluateOwn_eq orderly.compiled, ← executeOwn_conclude]
  simp only [evaluateOwn, compiled]

/-- What a program leaves that has run to its end. -/
theorem evaluate_completed (orderly : s.Orderly) {statements : List Node} {p : Code.Program}
    {n : Machine} (compiled : Compile.program (.program statements) = .ok p)
    (ended : (Own.runBody p.statements).run (s.withBuiltins.machine s.withBuiltins.names 0) =
      .ok .normal n) :
    (s.evaluate (.program statements)).2 = s.withBuiltins.resume n := by
  have ran : (Own.runBody p.code).run (s.withBuiltins.machine s.withBuiltins.names 0) =
      .ok (.returned .null) n := (Own.run_append ended _).trans (Own.run_retNull _ _ n)
  rw [evaluate_conclude orderly compiled, ran]
  rfl

/-- The second of two programs, given what the first has left. -/
theorem evaluate_next (orderly : s.Orderly) {n : Machine} {first second : List Node}
    {p : Code.Program} (compiled : Compile.program (.program second) = .ok p)
    (left : (s.evaluate (.program first)).2 = s.withBuiltins.resume n)
    (begins : (s.withBuiltins.resume n).machine (s.withBuiltins.resume n).names 0 = n) :
    (s.evaluate (.program first)).2.evaluate (.program second) =
      s.withBuiltins.conclude ((Own.runBody p.code).run n) := by
  rw [evaluate_conclude (orderly.evaluate _) compiled, left, withBuiltins_resume, conclude_resume,
    begins]

/-- A program is run at once or as two: the last result is the same, and so is what is left. -/
theorem evaluate_split (orderly : s.Orderly) {first second : List Node} {p : Code.Program}
    (compiled : Compile.program (.program (first ++ second)) = .ok p)
    (plain : ∀ n ∈ second, n.isDeclaration = false) (completes : s.completes first = true) :
    (s.evaluate (.program (first ++ second))).1 =
        ((s.evaluate (.program first)).2.evaluate (.program second)).1 ∧
      ∃ ρ, (s.evaluate (.program (first ++ second))).2.Paired ρ
        ((s.evaluate (.program first)).2.evaluate (.program second)).2 := by
  obtain ⟨p₁, p₂, tail, added, compiled₁, compiled₂, isBody, sameCode, isLocals, isLocals₂⟩ :=
    Compile.program_append plain compiled
  obtain ⟨_, m, again, ran⟩ := (completes_iff first).mp completes
  obtain rfl := Except.ok.inj (compiled₁.symm.trans again)
  have ended : (Own.runBody p₁.statements).run (s.withBuiltins.machine s.withBuiltins.names 0) =
      .ok .normal (m.withLoops []) := by
    rw [statements_own orderly.compiled compiled₁, ran]
    rfl
  have resumes := resumes_of_run ran
  have start := orderly.withBuiltins.paired
  obtain ⟨⟨scope, isScope⟩, ρ, alike⟩ := Own.split_alike (start.machine orderly.withBuiltins.own)
    (Compile.program_covered compiled₁) (Compile.program_covered compiled₂) sameCode isLocals₂ ended
  have begins := machine_resume isScope resumes.depth resumes.limit rfl
  rw [evaluate_conclude orderly compiled,
    evaluate_next orderly compiled₂ (evaluate_completed orderly compiled₁ ended) begins]
  have isCode : p.code = Code.declarations (added.foldl addLocal p₁.locals) ++
      (p₁.body ++ tail) ++ [.ret (some .null)] := by
    rw [Code.Program.code, Code.Program.statements, isBody, isLocals]
  have levels : (m.withLoops []).callLimit = s.withBuiltins.config.callLimit := resumes.limit
  rw [isCode, Own.run_runBody p₂.code, levels]
  exact start.conclude alike

/-- Splitting a program does not matter. Whatever a session has run before, a program that compiles
and whose later statements declare no function or class may as well be run as two, where the first
comes to its end: the last result or error, the output, the variables in their order with their
values to any depth, the functions and the classes are the same, and no later program can tell. -/
theorem program_may_be_split (config : Config) (builtins : Bool) (stdin : List String)
    (stdout stderr : Output) (trees first second : List Node) (p : Code.Program)
    (compiled : Compile.program (.program (first ++ second)) = .ok p)
    (plain : ∀ n ∈ second, n.isDeclaration = false)
    (completes : ((create config builtins stdin stdout stderr).outcomes evaluate trees).2.completes
      first = true) :
    let s := ((create config builtins stdin stdout stderr).outcomes evaluate trees).2
    let once := s.evaluate (.program (first ++ second))
    let twice := (s.evaluate (.program first)).2.evaluate (.program second)
    once.1 = twice.1 ∧
      (once.2.stdin = twice.2.stdin ∧ once.2.stdout = twice.2.stdout ∧
        once.2.stderr = twice.2.stderr) ∧
      (∀ depth, once.2.shown depth = twice.2.shown depth) ∧
      once.2.namespaces = twice.2.namespaces ∧ once.2.store.classes = twice.2.store.classes ∧
      ∀ later, (once.2.outcomes evaluate later).1 = (twice.2.outcomes evaluate later).1 := by
  intro s once twice
  have orderly : s.Orderly := (orderly_create config builtins stdin stdout stderr).outcomes trees
  obtain ⟨same, ρ, paired⟩ := evaluate_split orderly compiled plain completes
  have ready : once.2.awaitsBuiltins = false := by
    have runs : once = s.execute p := by simp only [once, evaluate, compiled]
    rw [runs]
    exact s.awaitsBuiltins_execute p
  refine ⟨same, ⟨paired.stdin, paired.stdout, paired.stderr⟩, paired.shown, paired.namespaces,
    paired.store.classes, fun later => ?_⟩
  exact paired.outcomes ready (orderly.evaluate _) ((orderly.evaluate _).evaluate _) later

/-- `function pair($x) { return [$x, $x]; } $a = $b; foreach ([1, 2] as $v) echo $v;` -/
def readsAhead : List Node := [
  .functionStatement "pair" [.variable "x" false] [
    .returnStatement (some (.arrayLiteral [.variable "x" false, .variable "x" false]))],
  .expressionStatement (.expression (.variable "a" false) [⟨"=", .variable "b" false⟩]),
  .foreachStatement (.arrayLiteral [.integer 1, .integer 2]) none (.variable "v" false) [
    .echoStatement (.variable "v" false)]]

/-- `foreach (pair(3) as $w) $b[] = $w; return $b;` -/
def fillsLater : List Node := [
  .foreachStatement (.functionCall (.string "pair") [.integer 3]) none (.variable "w" false) [
    .expressionStatement (.expression (.arrayIndex (.variable "b" false) [none] false)
      [⟨"=", .variable "w" false⟩])],
  .returnStatement (some (.variable "b" false))]

/-- The first part reads a variable that only the second one writes to, and each part has a loop. -/
theorem program_may_be_split_between_loops :
    let s := create .default false [] .unlimited .unlimited
    let once := s.evaluate (.program (readsAhead ++ fillsLater))
    let twice := (s.evaluate (.program readsAhead)).2.evaluate (.program fillsLater)
    once.1 = twice.1 ∧ once.2.stdout = twice.2.stdout ∧
      (∀ depth, once.2.shown depth = twice.2.shown depth) ∧
      once.2.stdout.text = "12" ∧ Assoc.keys once.2.globals = ["a", "v", "w", "b"] := by
  obtain ⟨same, ⟨-, output, -⟩, shown, -⟩ := program_may_be_split .default false [] .unlimited
    .unlimited [] readsAhead fillsLater _ rfl (by decide) (by decide +kernel)
  simp only [outcomes] at same output shown
  dsimp only
  exact ⟨same, output, shown, by decide +kernel⟩

end Session
end TreeScript
