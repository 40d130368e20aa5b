import TreeScript.Builtin
import TreeScript.Operator.Apply

set_option autoImplicit false

/- Running code. Evaluation follows the code; calls of user functions go through a parameter, which
`invoke` supplies for as many levels as the call limit leaves. -/
namespace TreeScript

open Code (Expr Place Base Entry Source Operand Stmt Block Function ClassDefinition)

/-- What a call brings along: its arguments, its receiver, and what evaluations that are under
way still hold. -/
structure Frame where
  arguments : List Value
  receiver : Option Value
  held : List Handle

namespace Frame

/-- A frame in which more is held. -/
def holding (f : Frame) (handles : List Handle) : Frame := { f with held := handles ++ f.held }

/-- The frame of a call made from this one. -/
def forCall (f : Frame) (receiver : Option Value) (arguments : List Value) : Frame :=
  ⟨arguments, receiver,
    (receiver.map Value.handles).getD [] ++ arguments.flatMap Value.handles ++ f.held⟩

end Frame

/-- How a user function is called. -/
abbrev UserCall := Function Stmt → Frame → Run Value

/-- Calls a user function or a builtin with the arguments of a frame. -/
def callWith (user : UserCall) (c : Callable) (frame : Frame) : Run Value :=
  match c with
  | .user f => user f frame
  | .builtin b => b.call frame.held frame.receiver frame.arguments

def findFunction (name : String) : Run Callable := do
  match (← get).names.function? name with
  | some f => pure f
  | none => Run.fail (.undefinedFunction name)

def findClass (name : String) : Run ClassId := do
  match (← get).names.class? name with
  | some c => pure c
  | none => Run.fail (.undefinedClass name)

/-- Calls a method of an object. -/
def callMethod (user : UserCall) (object : Value) (method : String) (frame : Frame) :
    Run Value := do
  match object with
  | .object o =>
      let data ← Run.inspect fun st => st.classData (st.object o).classId
      match data.method? method with
      | some m => callWith user m frame
      | none => Run.fail (.undefinedMethod data.name method)
  | _ => Run.fail (.nonObjectMethodCall method)

/-- New slots with copies of the property defaults of a class. -/
def newProperties (held : List Handle) : List (String × Value) → Run (List (String × SlotId))
  | [] => pure []
  | (name, default) :: rest => do
      let v ← copyValue held default
      let s ← Run.update (·.newSlot v)
      let more ← newProperties (.slot s :: held) rest
      pure ((name, s) :: more)

/-- A new object; its constructor is run if its class has one. -/
def instantiate (user : UserCall) (className : String) (arguments : List Value)
    (frame : Frame) : Run Value := do
  let c ← findClass className
  let data ← Run.inspect (·.classData c)
  let held := Handle.classData c :: (frame.forCall none arguments).held
  let properties ← newProperties held data.properties
  let object := Value.object (← Run.update (·.newObject ⟨c, properties⟩))
  match data.method? "__construct" with
  | some m => do
      let _ ← callWith user m (frame.forCall (some object) arguments)
      pure object
  | none => pure object

/-- How a statement ends. -/
inductive Flow where
  | normal
  | returned (v : Value)

/-- The table of loops grows as far as a loop's number asks for. -/
def Machine.setLoop (slot : Nat) (loop : Option Loop) (m : Machine) : Machine :=
  { m with loops := (m.loops ++ List.replicate (slot + 1 - m.loops.length) none).set slot loop }

/-- The next element of a loop, if it has one left. -/
def nextElement (slot : Nat) : Run (Option (Key × SlotId)) := do
  match ((← get).loops[slot]?).join with
  | none => pure none
  | some loop =>
      if loop.length ≤ loop.position then pure none
      else
        modify (·.setLoop slot (some { loop with position := loop.position + 1 }))
        let data ← Run.inspect (·.array loop.array)
        match data.entryAt? loop.position with
        | none => pure none
        | some entry =>
            Run.alter (·.setArray loop.array data.advance)
            pure (some entry)

/-- Runs the body of a loop for each element, at most so many times. -/
def walk (slot : Nat) (body : Key → SlotId → Run Flow) : Nat → Run Flow
  | 0 => pure .normal
  | n + 1 => do
      match ← nextElement slot with
      | none => pure .normal
      | some (key, s) =>
          match ← body key s with
          | .normal => walk slot body n
          | .returned v => pure (.returned v)

/-- Runs `body` and forgets the loop, however the run ends. -/
def inLoop (slot : Nat) (loop : Loop) (body : Run Flow) : Run Flow := do
  modify (·.setLoop slot (some loop))
  body.ensure (·.setLoop slot none)

mutual
def evalExpr (user : UserCall) (frame : Frame) : Expr → Run Value
  | .null => pure .null
  | .boolean b => pure (.boolean b)
  | .integer n => pure (.integer n)
  | .float x => pure (.float x)
  | .string s => pure (.string s)
  | .array entries => do
      arrayOf frame.held (← evalEntries user frame entries)
  | .load place => do (← evalPlace user frame .read place).get
  | .binary left operator right => do
      let v ← evalExpr user frame left
      let w ← evalExpr user (frame.holding v.handles) right
      applyBinary (v.handles ++ w.handles ++ frame.held) operator v w
  | .assign target source => do
      let l ← evalPlace user frame .write target
      assignFrom user (frame.holding l.handles) l source
  | .unary operator operand => evalOperand user frame operator operand
  | .call function arguments => do
      let name ← evalExpr user frame function
      let f ← findFunction (← Run.inspect (·.toText name))
      let arguments ← evalExprs user frame arguments
      callWith user f (frame.forCall none arguments)
  | .callMethod object method arguments => do
      let object ← evalExpr user frame object
      let holding := frame.holding object.handles
      let method ← evalExpr user holding method
      let method ← Run.inspect (·.toText method)
      let arguments ← evalExprs user holding arguments
      TreeScript.callMethod user object method (frame.forCall (some object) arguments)
  | .instantiate className arguments => do
      let name ← evalExpr user frame className
      let name ← Run.inspect (·.toText name)
      let arguments ← evalExprs user frame arguments
      TreeScript.instantiate user name arguments frame
  | .conditional condition consequent alternate => do
      let v ← evalExpr user frame condition
      if ← Run.inspect (·.toBoolean v) then evalExpr user frame consequent
      else evalExpr user frame alternate

/-- Values one after the other, each held while the later ones are evaluated. -/
def evalExprs (user : UserCall) (frame : Frame) : List Expr → Run (List Value)
  | [] => pure []
  | e :: rest => do
      let v ← evalExpr user frame e
      let more ← evalExprs user (frame.holding v.handles) rest
      pure (v :: more)

/-- The entries of an array literal, each with its key if it has one. -/
def evalEntries (user : UserCall) (frame : Frame) :
    List Entry → Run (List (Option Value × Value))
  | [] => pure []
  | .value e :: rest => do
      let v ← evalExpr user frame e
      let more ← evalEntries user (frame.holding v.handles) rest
      pure ((none, v) :: more)
  | .pair key e :: rest => do
      let k ← evalExpr user frame key
      let v ← evalExpr user (frame.holding k.handles) e
      let more ← evalEntries user (frame.holding (k.handles ++ v.handles)) rest
      pure ((some k, v) :: more)

def assignFrom (user : UserCall) (frame : Frame) (l : Location) : Source → Run Value
  | .value e => do
      let v ← evalExpr user frame e
      l.set frame.held v
  | .reference p => do
      let s ← (← evalPlace user frame .write p).slot
      l.bind s

def evalOperand (user : UserCall) (frame : Frame) (operator : UnaryOperator) :
    Operand → Run Value
  | .value e => do applyUnary operator (← evalExpr user frame e)
  | .place p => do (← evalPlace user frame .write p).applyUnary frame.held operator

/-- Resolves a place for a use; what it lies in is resolved for the same use. -/
def evalPlace (user : UserCall) (frame : Frame) (use : Use) : Place → Run Location
  | .variable name => do
      Run.note (.lookup use name)
      Location.ofVariable name
  | .element base key => do
      let container ← evalBase user frame use base
      let key ← evalKey user (frame.holding container.handles) key
      pure (.element container key)
  | .nullReference => do pure (.detached (← Run.update (·.newSlot .null)))
  | .list places => do pure (.list (← evalPlaces user frame use places))

def evalBase (user : UserCall) (frame : Frame) (use : Use) : Base → Run Value
  | .value e => evalExpr user frame e
  | .implied p => do (← evalPlace user frame use p).imply

def evalKey (user : UserCall) (frame : Frame) : Option Expr → Run (Option Key)
  | none => pure none
  | some e => do
      match Key.ofValue (← evalExpr user frame e) with
      | some key => pure (some key)
      | none => Run.fail .illegalOffset

def evalPlaces (user : UserCall) (frame : Frame) (use : Use) :
    List Place → Run (List Location)
  | [] => pure []
  | p :: rest => do
      let l ← evalPlace user frame use p
      let more ← evalPlaces user (frame.holding l.handles) use rest
      pure (l :: more)
end

/-- The defaults of a class, in order, each held while the later ones are evaluated. -/
def evalDefaults (user : UserCall) (frame : Frame) :
    List (String × Expr) → Run (List (String × Value))
  | [] => pure []
  | (name, e) :: rest => do
      let v ← evalExpr user frame e
      let more ← evalDefaults user (frame.holding v.handles) rest
      pure ((name, v) :: more)

/-- Declares a class. Its defaults are kept as evaluated. -/
def defineClass (user : UserCall) (frame : Frame) (definition : ClassDefinition Stmt) :
    Run Unit := do
  let name ← evalExpr user frame definition.name
  let name ← Run.inspect (·.toText name)
  let defaults ← evalDefaults user frame definition.properties
  let data := definition.methods.foldl
    (fun (data : ClassData) (key, f) => data.defineMethod key (.user f)) ⟨name, defaults, []⟩
  let c ← Run.update (·.newClass data)
  modify fun m => { m with names := m.names.defineClass name c }

def assignKey (user : UserCall) (frame : Frame) (key : Key) : Option Place → Run Unit
  | none => pure ()
  | some place => do
      let l ← evalPlace user frame .write place
      let _ ← l.set frame.held key.toValue

def returnValue (user : UserCall) (frame : Frame) : Option Expr → Run Value
  | some e => evalExpr user frame e
  | none => pure .null

/-- The array that a loop walks: by reference the array itself, otherwise a copy of it. -/
def walkedArray (held : List Handle) (byReference : Bool) (source : ArrayId) : Run Value :=
  if byReference then pure (.array source) else copyValue held (.array source)

/-- Takes up an element of the array that a loop walks. -/
def takeElement (held : List Handle) (byReference : Bool) (l : Location) (s : SlotId) :
    Run Value :=
  if byReference then l.bind s else do l.set held (← Run.inspect (·.read s))

mutual
def execStmt (user : UserCall) (frame : Frame) : Stmt → Run Flow
  | .defineVariables names => do
      defineVariables names
      pure .normal
  | .bindArgument name index => do
      bindVariable frame.held name (frame.arguments[index]?.getD .null)
      pure .normal
  | .bindThis => do
      bindVariable frame.held "this" (frame.receiver.getD .null)
      pure .normal
  | .echo e => do
      let v ← evalExpr user frame e
      Run.write (← Run.inspect (·.toText v))
      pure .normal
  | .inlineHtml html => do
      Run.write html
      pure .normal
  | .expression e => do
      let _ ← evalExpr user frame e
      pure .normal
  | .ifElse condition consequent alternate => do
      let v ← evalExpr user frame condition
      if ← Run.inspect (·.toBoolean v) then execBlock user frame consequent
      else execBlock user frame alternate
  | .foreach slot array key value byReference body => do
      match ← evalExpr user frame array with
      | .array source => do
          Run.alter fun st => st.setArray source (st.array source).reset
          match ← walkedArray frame.held byReference source with
          | .array a => do
              let length := (← Run.inspect (·.array a)).size
              let inside := frame.holding [.array source, .array a]
              inLoop slot ⟨a, length, 0⟩ (walk slot (fun k s => do
                let frame := inside.holding [.slot s]
                assignKey user frame k key
                let l ← evalPlace user frame .write value
                let _ ← takeElement frame.held byReference l s
                execBlock user
                  ((if byReference then inside else frame).holding l.handles) body) length)
          | _ => pure .normal
      | _ => pure .normal
  | .ret e => do
      let v ← returnValue user frame e
      pure (.returned (← copyValue frame.held v))
  | .defineFunction f => do
      modify fun m => { m with names := m.names.defineFunction f.name (.user f) }
      pure .normal
  | .defineClass definition => do
      defineClass user frame definition
      pure .normal
  | .scoped body => inNewScope (execBlock user frame body)

def execBlock (user : UserCall) (frame : Frame) : List Stmt → Run Flow
  | [] => pure .normal
  | s :: rest => do
      match ← execStmt user frame s with
      | .normal => execBlock user frame rest
      | .returned v => pure (.returned v)
end

/-- Calls a user function while at most so many calls may still nest. -/
def invoke : Nat → UserCall
  | 0, _, _ => do Run.fail (.nestingLevel (← get).callLimit)
  | levels + 1, f, frame =>
      inCall f.loopSlots do
        match ← execBlock (invoke levels) frame f.body with
        | .normal => pure .null
        | .returned v => pure v

end TreeScript
