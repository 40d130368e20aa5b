import TreeScript.Fault
import TreeScript.Machine.Basic

set_option autoImplicit false

/- Computations on the machine, as the steps they take one after the other. Nothing a computation
does is hidden between two steps, so that a run can be watched from its first state to its last. -/
namespace TreeScript

/-- What a variable is looked up for. -/
inductive Use where
  | read | write
  deriving Repr, DecidableEq

/-- What a run does that its states do not show. -/
inductive Event where
  /-- A variable of the current scope is looked up. -/
  | lookup (use : Use) (name : String)
  deriving Repr, DecidableEq

/-- A computation. One step changes the machine and gives a result; what follows a result goes by
it; and `ensure` takes a last step however the computation before it ends. -/
inductive Run : Type → Type 1 where
  | done {α : Type} (a : α) : Run α
  | fault {α : Type} (f : Fault) : Run α
  | step {α : Type} (action : Machine → α × Machine) : Run α
  | note (event : Event) : Run Unit
  | bind {α β : Type} (first : Run α) (next : α → Run β) : Run β
  | ensure {α : Type} (body : Run α) (last : Machine → Machine) : Run α

/-- A point of a run: what is noted there, if anything, and the machine as it is then. -/
structure Moment where
  event : Option Event
  machine : Machine

namespace Run

instance {α : Type} : Inhabited (Run α) := ⟨.fault .endless⟩

instance : Monad Run where
  pure := .done
  bind := .bind

instance : MonadStateOf Machine Run where
  get := .step fun m => (m, m)
  set m := .step fun _ => ((), m)
  modifyGet := .step

/-- How a computation ends on a machine. -/
def run {α : Type} : Run α → Machine → EStateM.Result Fault Machine α
  | .done a, m => .ok a m
  | .fault f, m => .error f m
  | .step action, m =>
      let (a, m) := action m
      .ok a m
  | .note _, m => .ok () m
  | .bind first next, m =>
      match first.run m with
      | .ok a m => (next a).run m
      | .error f m => .error f m
  | .ensure body last, m =>
      match body.run m with
      | .ok a m => .ok a (last m)
      | .error f m => .error f (last m)

instance {α : Type} : CoeFun (Run α) fun _ => Machine → EStateM.Result Fault Machine α := ⟨run⟩

/-- The moments that a computation passes on a machine, in order. -/
def trace {α : Type} : Run α → Machine → List Moment
  | .done _, _ => []
  | .fault _, _ => []
  | .step action, m => [⟨none, (action m).2⟩]
  | .note event, m => [⟨some event, m⟩]
  | .bind first next, m =>
      first.trace m ++
        match first.run m with
        | .ok a m => (next a).trace m
        | .error _ _ => []
  | .ensure body last, m =>
      body.trace m ++
        match body.run m with
        | .ok _ m => [⟨none, last m⟩]
        | .error _ m => [⟨none, last m⟩]

def fail {α : Type} (e : ScriptError) : Run α := .fault (.script e)

/-- Reads from the store. -/
def inspect {α : Type} (f : Store → α) : Run α := do pure (f (← get).store)

/-- Changes the store. -/
def update {α : Type} (f : Store → α × Store) : Run α :=
  modifyGet fun m =>
    let (a, st) := f m.store
    (a, { m with store := st })

def alter (f : Store → Store) : Run Unit := update fun st => ((), f st)

/-- The answer of a primitive that may not end. -/
def ending {α : Type} : Option α → Run α
  | some a => pure a
  | none => .fault .endless

def write (text : String) : Run Unit := do
  match (← get).stdout.write text with
  | some o => modify ({ · with stdout := o })
  | none => .fault (.stream "stream closed")

/-- The next line of input, if there is one. -/
def readLine : Run (Option String) := do
  match (← get).stdin with
  | [] => pure none
  | line :: rest =>
      modify ({ · with stdin := rest })
      pure (some line)

end Run
end TreeScript
