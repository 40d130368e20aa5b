import TreeScript.Session

set_option autoImplicit false

/- Running code with loops that keep their state to themselves: the array a loop walks, its length
and its position are an argument of the loop, and no table of loops is read or written. In all else
this is how code is run. -/
namespace TreeScript

/-- The loop one element further. -/
def Loop.next (loop : Loop) : Loop := { loop with position := loop.position + 1 }

namespace Own

open Code (Stmt Block)

/-- The element at which a loop is, if the array still has it. -/
def element (loop : Loop) : Run (Option (Key × SlotId)) := do
  let data ← Run.inspect (·.array loop.array)
  match data.entryAt? loop.position with
  | none => pure none
  | some entry =>
      Run.alter (·.setArray loop.array data.advance)
      pure (some entry)

/-- Runs the body of a loop for each element from its position on. -/
def walk (body : Key → SlotId → Run Flow) (loop : Loop) : Run Flow :=
  if loop.length ≤ loop.position then pure .normal
  else do
    match ← element loop with
    | none => pure .normal
    | some (key, s) =>
        match ← body key s with
        | .normal => walk body loop.next
        | .returned v => pure (.returned v)
termination_by loop.length - loop.position
decreasing_by
  simp only [Loop.next]
  omega

mutual
def execStmt (user : UserCall) (frame : Frame) : Stmt → Run Flow
  | .ifElse condition consequent alternate => do
      let v ← evalExpr user frame condition
      if ← Run.inspect (·.toBoolean v) then execBlock user frame consequent
      else execBlock user frame alternate
  | .foreach _ array key value byReference body => do
      match ← evalExpr user frame array with
      | .array source => do
          Run.alter fun st => st.setArray source (st.array source).reset
          match ← walkedArray frame.held byReference source with
          | .array a => do
              let length := (← Run.inspect (·.array a)).size
              let inside := frame.holding [.array source, .array a]
              walk (fun k s => do
                let frame := inside.holding [.slot s]
                assignKey user frame k key
                let l ← evalPlace user frame .write value
                let _ ← takeElement frame.held byReference l s
                execBlock user
                  ((if byReference then inside else frame).holding l.handles) body) ⟨a, length, 0⟩
          | _ => pure .normal
      | _ => pure .normal
  | .scoped body => inNewScope (execBlock user frame body)
  | s => TreeScript.execStmt user frame s

def execBlock (user : UserCall) (frame : Frame) : List Stmt → Run Flow
  | [] => pure .normal
  | s :: rest => do
      match ← execStmt user frame s with
      | .normal => execBlock user frame rest
      | .returned v => pure (.returned v)
end

/-- Runs a call, which has no loops to put away. -/
def inCall {α : Type} (body : Run α) : Run α := do
  enterCall
  body.ensure Machine.leaveCall

def invoke : Nat → UserCall
  | 0, _, _ => do Run.fail (.nestingLevel (← get).callLimit)
  | levels + 1, f, frame =>
      inCall do
        match ← execBlock (invoke levels) frame f.body with
        | .normal => pure .null
        | .returned v => pure v

def runBody (body : Block) : Run Flow := do
  let limit := (← get).callLimit
  execBlock (invoke limit) ⟨[], none, []⟩ body

end Own

namespace Session

/-- Runs compiled code on a machine without a table of loops. -/
def executeOwn (s : Session) (p : Code.Program) : Except EvalError Outcome × Session :=
  let s := s.withBuiltins
  match Own.runBody p.code (s.machine s.names 0) with
  | .ok flow m =>
      let v := match flow with
        | .returned v => v
        | .normal => .null
      (.ok ⟨v.typeTag, m.store.snapshot v⟩, s.resume m)
  | .error f m => (.error (.runtime f), (s.resume m).report f)

def evaluateOwn (s : Session) (tree : Node) : Except EvalError Outcome × Session :=
  match tree with
  | .program _ =>
      match Compile.program tree with
      | .ok p => s.executeOwn p
      | .error e => (.error (.compile e), s)
  | other => (.error (.notAProgram other.kind), s)

end Session
end TreeScript
