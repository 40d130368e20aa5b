import TreeScript.Proofs.Uniform.Steps

set_option autoImplicit false

/- Evaluation and execution are uniform: whatever they do beyond plain steps and writes, they do by
calls and by loops. -/
namespace TreeScript

open Code (Expr Place Base Entry Source Operand Stmt ClassDefinition)

variable {looping : Prop}

theorem callWith_uniform (c : Callable) (frame : Frame) :
    Uniform looping fun r => callWith r.call c frame := by
  cases c with
  | user f => exact .call f frame
  | builtin b => exact builtin_uniform _ b _ _

theorem findFunction_uniform (name : String) : Uniform looping fun _ => findFunction name := by
  have isElim : findFunction name = get >>= fun m =>
      (m.names.function? name).elim (Run.fail (.undefinedFunction name)) pure :=
    congrArg (get >>= ·) (funext fun m => by cases m.names.function? name <;> rfl)
  rw [isElim]
  refine .look (k := fun found _ => found.elim (Run.fail (.undefinedFunction name)) pure)
    (·.names.function? name) (fun _ _ _ => rfl) (fun _ _ => rfl) fun found => ?_
  cases found with
  | some f => exact .pure f
  | none => exact .fail _

theorem findClass_uniform (name : String) : Uniform looping fun _ => findClass name := by
  have isElim : findClass name = get >>= fun m =>
      (m.names.class? name).elim (Run.fail (.undefinedClass name)) pure :=
    congrArg (get >>= ·) (funext fun m => by cases m.names.class? name <;> rfl)
  rw [isElim]
  refine .look (k := fun found _ => found.elim (Run.fail (.undefinedClass name)) pure)
    (·.names.class? name) (fun _ _ _ => rfl) (fun _ _ => rfl) fun found => ?_
  cases found with
  | some c => exact .pure c
  | none => exact .fail _

theorem callMethod_uniform (object : Value) (method : String) (frame : Frame) :
    Uniform looping fun r => callMethod r.call object method frame := by
  cases object with
  | object o =>
      refine .bind (.inspect _) fun data => ?_
      split
      · exact callWith_uniform _ frame
      · exact .fail _
  | null | boolean b | integer n | float x | string text | array a => exact .fail _

theorem newProperties_uniform (held : List Handle) (defaults : List (String × Value)) :
    Uniform looping fun _ => newProperties held defaults := by
  induction defaults generalizing held with
  | nil => exact .pure _
  | cons default rest ih =>
      exact .bind (copyValue_uniform held _) fun v => .bind (.update _) fun s =>
        .bind (ih _) fun more => .pure _

theorem instantiate_uniform (className : String) (arguments : List Value) (frame : Frame) :
    Uniform looping fun r => instantiate r.call className arguments frame := by
  refine .bind (findClass_uniform className) fun c => .bind (.inspect _) fun data =>
    .bind (newProperties_uniform _ _) fun properties => .bind (.update _) fun o => ?_
  dsimp only
  split
  · exact .bind (callWith_uniform _ _) fun _ => .pure _
  · exact .pure _

mutual
theorem evalExpr_uniform (frame : Frame) :
    (e : Expr) → Uniform looping fun r => evalExpr r.call frame e
  | .null | .boolean _ | .integer _ | .float _ | .string _ => by
      simp only [evalExpr]
      exact .pure _
  | .array entries => by
      simp only [evalExpr]
      exact .bind (evalEntries_uniform frame entries) fun values => arrayOf_uniform _ values
  | .load place => by
      simp only [evalExpr]
      exact .bind (evalPlace_uniform frame .read place) fun l => get_uniform l
  | .binary left operator right => by
      simp only [evalExpr]
      exact .bind (evalExpr_uniform frame left) fun v => .bind (evalExpr_uniform _ right) fun w =>
        applyBinary_uniform _ operator v w
  | .assign target source => by
      simp only [evalExpr]
      exact .bind (evalPlace_uniform frame .write target) fun l => assignFrom_uniform _ l source
  | .unary operator operand => by
      simp only [evalExpr]
      exact evalOperand_uniform frame operator operand
  | .call function arguments => by
      simp only [evalExpr]
      exact .bind (evalExpr_uniform frame function) fun _ => .bind (.inspect _) fun name =>
        .bind (findFunction_uniform name) fun f => .bind (evalExprs_uniform frame arguments)
          fun _ => callWith_uniform f _
  | .callMethod object method arguments => by
      simp only [evalExpr]
      exact .bind (evalExpr_uniform frame object) fun object =>
        .bind (evalExpr_uniform _ method) fun _ => .bind (.inspect _) fun name =>
          .bind (evalExprs_uniform _ arguments) fun _ => callMethod_uniform object name _
  | .instantiate className arguments => by
      simp only [evalExpr]
      exact .bind (evalExpr_uniform frame className) fun _ => .bind (.inspect _) fun name =>
        .bind (evalExprs_uniform frame arguments) fun values => instantiate_uniform name values frame
  | .conditional condition consequent alternate => by
      simp only [evalExpr]
      refine .bind (evalExpr_uniform frame condition) fun v => .bind (.inspect _) fun chosen => ?_
      cases chosen with
      | true => exact evalExpr_uniform frame consequent
      | false => exact evalExpr_uniform frame alternate

theorem evalExprs_uniform (frame : Frame) :
    (es : List Expr) → Uniform looping fun r => evalExprs r.call frame es
  | [] => by
      simp only [evalExprs]
      exact .pure _
  | e :: rest => by
      simp only [evalExprs]
      exact .bind (evalExpr_uniform frame e) fun _ => .bind (evalExprs_uniform _ rest) fun _ =>
        .pure _

theorem evalEntries_uniform (frame : Frame) :
    (entries : List Entry) → Uniform looping fun r => evalEntries r.call frame entries
  | [] => by
      simp only [evalEntries]
      exact .pure _
  | .value e :: rest => by
      simp only [evalEntries]
      exact .bind (evalExpr_uniform frame e) fun _ => .bind (evalEntries_uniform _ rest) fun _ =>
        .pure _
  | .pair key e :: rest => by
      simp only [evalEntries]
      exact .bind (evalExpr_uniform frame key) fun _ => .bind (evalExpr_uniform _ e) fun _ =>
        .bind (evalEntries_uniform _ rest) fun _ => .pure _

theorem assignFrom_uniform (frame : Frame) (l : Location) :
    (source : Source) → Uniform looping fun r => assignFrom r.call frame l source
  | .value e => by
      simp only [assignFrom]
      exact .bind (evalExpr_uniform frame e) fun v => set_uniform _ l v
  | .reference p => by
      simp only [assignFrom]
      exact .bind (evalPlace_uniform frame .write p) fun from' => .bind (slot_uniform from') fun s =>
        bind_uniform l s

theorem evalOperand_uniform (frame : Frame) (operator : UnaryOperator) :
    (operand : Operand) → Uniform looping fun r => evalOperand r.call frame operator operand
  | .value e => by
      simp only [evalOperand]
      exact .bind (evalExpr_uniform frame e) fun v => applyUnary_uniform operator v
  | .place p => by
      simp only [evalOperand]
      exact .bind (evalPlace_uniform frame .write p) fun l => applyUnaryAt_uniform _ operator l

theorem evalPlace_uniform (frame : Frame) (use : Use) :
    (p : Place) → Uniform looping fun r => evalPlace r.call frame use p
  | .variable name => by
      simp only [evalPlace]
      exact .bind (.note _) fun _ => ofVariable_uniform name
  | .element base key => by
      simp only [evalPlace]
      exact .bind (evalBase_uniform frame use base) fun _ => .bind (evalKey_uniform _ key) fun _ =>
        .pure _
  | .nullReference => by
      simp only [evalPlace]
      exact .bind (.update _) fun _ => .pure _
  | .list places => by
      simp only [evalPlace]
      exact .bind (evalPlaces_uniform frame use places) fun _ => .pure _

theorem evalBase_uniform (frame : Frame) (use : Use) :
    (base : Base) → Uniform looping fun r => evalBase r.call frame use base
  | .value e => by
      simp only [evalBase]
      exact evalExpr_uniform frame e
  | .implied p => by
      simp only [evalBase]
      exact .bind (evalPlace_uniform frame use p) fun l => imply_uniform l

theorem evalKey_uniform (frame : Frame) :
    (key : Option Expr) → Uniform looping fun r => evalKey r.call frame key
  | none => by
      simp only [evalKey]
      exact .pure _
  | some e => by
      simp only [evalKey]
      refine .bind (evalExpr_uniform frame e) fun v => ?_
      split
      · exact .pure _
      · exact .fail _

theorem evalPlaces_uniform (frame : Frame) (use : Use) :
    (places : List Place) → Uniform looping fun r => evalPlaces r.call frame use places
  | [] => by
      simp only [evalPlaces]
      exact .pure _
  | p :: rest => by
      simp only [evalPlaces]
      exact .bind (evalPlace_uniform frame use p) fun _ =>
        .bind (evalPlaces_uniform _ use rest) fun _ => .pure _
end

theorem evalDefaults_uniform (frame : Frame) (defaults : List (String × Expr)) :
    Uniform looping fun r => evalDefaults r.call frame defaults := by
  induction defaults generalizing frame with
  | nil => exact .pure _
  | cons default rest ih =>
      exact .bind (evalExpr_uniform frame _) fun _ => .bind (ih _) fun _ => .pure _

theorem defineClass_uniform (frame : Frame) (definition : ClassDefinition Stmt) :
    Uniform looping fun r => defineClass r.call frame definition :=
  .bind (evalExpr_uniform frame _) fun _ => .bind (.inspect _) fun _ =>
    .bind (evalDefaults_uniform frame _) fun _ => .bind (.update _) fun _ =>
      .change (fun _ _ _ => rfl) (fun _ => rfl) fun _ _ => rfl

theorem assignKey_uniform (frame : Frame) (key : Key) (place : Option Place) :
    Uniform looping fun r => assignKey r.call frame key place := by
  cases place with
  | none => exact .pure _
  | some place =>
      exact .bind (evalPlace_uniform frame .write place) fun l => .bind (set_uniform _ l _) fun _ =>
        .pure _

theorem returnValue_uniform (frame : Frame) (e : Option Expr) :
    Uniform looping fun r => returnValue r.call frame e := by
  cases e with
  | none => exact .pure _
  | some e => exact evalExpr_uniform frame e

theorem walkedArray_uniform (held : List Handle) (byReference : Bool) (source : ArrayId) :
    Uniform looping fun _ => walkedArray held byReference source := by
  cases byReference with
  | true => exact .pure _
  | false => exact copyValue_uniform held _

theorem takeElement_uniform (held : List Handle) (byReference : Bool) (l : Location) (s : SlotId) :
    Uniform looping fun _ => takeElement held byReference l s := by
  cases byReference with
  | true => exact bind_uniform l s
  | false => exact .bind (.inspect _) fun v => set_uniform held l v

/-- A statement with no block of its own is run without a loop. -/
theorem flatStmt_uniform (frame : Frame) {s : Stmt} (flat : s.nests = false) :
    Uniform looping fun r => execStmt r.call frame s := by
  cases s with
  | defineVariables names =>
      simp only [execStmt]
      exact .bind (defineVariables_uniform names) fun _ => .pure _
  | bindArgument name index =>
      simp only [execStmt]
      exact .bind (bindVariable_uniform _ name _) fun _ => .pure _
  | bindThis =>
      simp only [execStmt]
      exact .bind (bindVariable_uniform _ _ _) fun _ => .pure _
  | echo e =>
      simp only [execStmt]
      exact .bind (evalExpr_uniform frame e) fun _ => .bind (.inspect _) fun text =>
        .bind (.write text) fun _ => .pure _
  | inlineHtml html =>
      simp only [execStmt]
      exact .bind (.write html) fun _ => .pure _
  | expression e =>
      simp only [execStmt]
      exact .bind (evalExpr_uniform frame e) fun _ => .pure _
  | ret e =>
      simp only [execStmt]
      exact .bind (returnValue_uniform frame e) fun v => .bind (copyValue_uniform _ v) fun _ =>
        .pure _
  | defineFunction f =>
      simp only [execStmt]
      exact .bind (.change (fun _ _ _ => rfl) (fun _ => rfl) fun _ _ => rfl) fun _ => .pure _
  | defineClass definition =>
      simp only [execStmt]
      exact .bind (defineClass_uniform frame definition) fun _ => .pure _
  | ifElse _ _ _ | «foreach» _ _ _ _ _ _ | «scoped» _ => cases flat

mutual
theorem execStmt_uniform (frame : Frame) : (s : Stmt) → Uniform True fun r => r.execStmt frame s
  | .ifElse condition consequent alternate => by
      simp only [Recursion.execStmt]
      refine .bind (evalExpr_uniform frame condition) fun v => .bind (.inspect _) fun chosen => ?_
      cases chosen with
      | true => exact execBlock_uniform frame consequent
      | false => exact execBlock_uniform frame alternate
  | .foreach slot array key value byReference body => by
      simp only [Recursion.execStmt]
      refine .bind (evalExpr_uniform frame array) fun v => ?_
      split
      · refine .bind (.alter _) fun _ => .bind (walkedArray_uniform _ byReference _) fun w => ?_
        split
        · refine .bind (.inspect _) fun data => .loop trivial slot _ _ fun k s => ?_
          exact .bind (assignKey_uniform _ k key) fun _ =>
            .bind (evalPlace_uniform _ .write value) fun l =>
              .bind (takeElement_uniform _ byReference l s) fun _ => execBlock_uniform _ body
        · exact .pure _
      · exact .pure _
  | .scoped body => by
      simp only [Recursion.execStmt]
      exact .scoped (execBlock_uniform frame body)
  | .defineVariables _ | .bindArgument _ _ | .bindThis | .echo _ | .inlineHtml _ | .expression _
  | .ret _ | .defineFunction _ | .defineClass _ => by
      simp only [Recursion.execStmt]
      exact flatStmt_uniform frame rfl

theorem execBlock_uniform (frame : Frame) :
    (block : List Stmt) → Uniform True fun r => r.execBlock frame block
  | [] => by
      simp only [Recursion.execBlock]
      exact .pure _
  | s :: rest => by
      simp only [Recursion.execBlock]
      refine .bind (execStmt_uniform frame s) fun flow => ?_
      cases flow with
      | normal => exact execBlock_uniform frame rest
      | returned v => exact .pure _
end

theorem callBody_uniform (f : Code.Function Stmt) (frame : Frame) :
    Uniform True fun r => r.callBody f frame := by
  refine .bind (execBlock_uniform frame f.body) fun flow => ?_
  cases flow with
  | normal => exact .pure _
  | returned v => exact .pure v

end TreeScript
