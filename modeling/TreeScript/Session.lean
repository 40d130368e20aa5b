import TreeScript.Compile.Statement
import TreeScript.Evaluate
import TreeScript.Tree.Reader

set_option autoImplicit false

/- Sessions: programs run one after the other over the same globals, functions and classes. -/
namespace TreeScript

structure Config where
  callLimit : Nat
  rootPath : String
  deriving Repr, DecidableEq

namespace Config

def default : Config := ⟨256, TreeScript.rootPath⟩

/-- For programs that are not trusted. -/
def sandboxed : Config := { default with callLimit := 64 }

end Config

structure Session where
  config : Config
  store : Store
  globals : Scope
  namespaces : Namespaces
  /-- Builtins are installed before the first program that runs, if at all. -/
  awaitsBuiltins : Bool
  stdin : List String
  stdout : Output
  stderr : Output

/-- Why a program gave no result. -/
inductive EvalError where
  | malformed
  | compile (e : CompileError)
  | notAProgram (kind : Kind)
  | runtime (f : Fault)
  deriving Repr, DecidableEq

namespace EvalError

/-- The stage at which the program stopped. -/
def stage : EvalError → String
  | .malformed => "Load"
  | .compile _ | .notAProgram _ => "Compile"
  | .runtime _ => "Runtime"

def message : EvalError → String
  | .malformed => "Malformed AST: the text describes no tree"
  | .compile e => e.message
  | .notAProgram kind => "Expected an N_PROGRAM root, found " ++ kind.tag
  | .runtime f => f.message

end EvalError

/-- The result of a program: its type, and the value as it was at the end. -/
structure Outcome where
  typeTag : String
  value : Snapshot

def Outcome.toJson (o : Outcome) : Json :=
  .object [("type", .string o.typeTag), ("value", o.value.toJson)]

/-- The machine on which a session runs a program. -/
def Session.machine (s : Session) (names : Namespace) (loopSlots : Nat) : Machine :=
  { store := s.store, scopes := [s.globals], names, stdin := s.stdin, stdout := s.stdout,
    callDepth := 0, callLimit := s.config.callLimit, loops := List.replicate loopSlots none }

/-- The session after a machine has stopped. -/
def Session.resume (s : Session) (m : Machine) : Session :=
  { s with
    store := m.store, globals := m.scopes.headD [],
    namespaces := Assoc.set s.namespaces (pathKey s.config.rootPath) m.names,
    stdin := m.stdin, stdout := m.stdout }

/-- The namespace that programs declare into. -/
def Session.names (s : Session) : Namespace :=
  (Namespaces.opened s.namespaces s.config.rootPath).1

/-- Installs the builtins unless that was done or is not wanted. -/
def Session.withBuiltins (s : Session) : Session :=
  let namespaces := (Namespaces.opened s.namespaces s.config.rootPath).2
  if s.awaitsBuiltins then
    let (names, store) := Builtin.install s.names s.store
    { s with
      store, awaitsBuiltins := false,
      namespaces := Assoc.set namespaces (pathKey s.config.rootPath) names }
  else { s with namespaces }

/-- Tells an error of the script on the error stream, as far as that accepts it. -/
def Session.report (s : Session) : Fault → Session
  | .script e => { s with stderr := (s.stderr.write (e.message ++ "\n")).getD s.stderr }
  | _ => s

/-- Runs a whole block at the outermost level. -/
def runBody (body : Code.Block) : Run Flow := do
  let limit := (← get).callLimit
  execBlock (invoke limit) ⟨[], none, []⟩ body

/-- The code of a program. One that does not return gives null. -/
def Code.Program.code (p : Code.Program) : Code.Block := p.statements ++ [.ret (some .null)]

/-- The machine with which a program begins, once the builtins are there. -/
def Session.boot (s : Session) (p : Code.Program) : Machine :=
  s.machine s.names p.loopSlots

/-- Runs compiled code. -/
def Session.execute (s : Session) (p : Code.Program) : Except EvalError Outcome × Session :=
  let s := s.withBuiltins
  match runBody p.code (s.boot p) with
  | .ok flow m =>
      let v := match flow with
        | .returned v => v
        | .normal => .null
      (.ok ⟨v.typeTag, m.store.snapshot v⟩, s.resume m)
  | .error f m => (.error (.runtime f), (s.resume m).report f)

/-- Compiles and runs a tree. -/
def Session.evaluate (s : Session) (tree : Node) : Except EvalError Outcome × Session :=
  match tree with
  | .program _ =>
      match Compile.program tree with
      | .ok p => s.execute p
      | .error e => (.error (.compile e), s)
  | other => (.error (.notAProgram other.kind), s)

/-- A session before its first program. -/
def Session.create (config : Config) (awaitsBuiltins : Bool) (stdin : List String)
    (stdout stderr : Output) : Session :=
  { config, store := .empty, globals := [], namespaces := [], awaitsBuiltins, stdin, stdout,
    stderr }

def Session.start (config : Config) (stdin : List String) : Session :=
  .create config true stdin .unlimited .unlimited

end TreeScript
