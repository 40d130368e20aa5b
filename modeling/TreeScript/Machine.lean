import TreeScript.Machine.Run
import TreeScript.Store.Comparison
import TreeScript.Store.Copy
import TreeScript.Store.Snapshot
import TreeScript.Value.Arithmetic

set_option autoImplicit false

/- The computations on the machine that everything else is made of. -/
namespace TreeScript

/-- A copy of a value, made while `held` is held by evaluations that are under way. -/
def copyValue (held : List Handle) (v : Value) : Run Value := do
  let copy ← modifyGet fun m =>
    match m.store.copy (m.roots ++ v.handles ++ held) v with
    | some (copy, st) => (some copy, { m with store := st })
    | none => (none, m)
  Run.ending copy

/-- Where an entry of an array goes, by its key if it has one. -/
def entrySpot (a : ArrayId) : Option Value → Run Spot
  | none => pure (.append a)
  | some key =>
      match Key.ofValue key with
      | none => Run.fail .illegalOffset
      | some key => pure (.element a key)

/-- An array from entries: plain values are appended, pairs are put under their keys, and all
values are copied in. -/
def fillArray (held : List Handle) (a : ArrayId) : List (Option Value × Value) → Run Unit
  | [] => pure ()
  | (key, v) :: rest => do
      let pending := rest.flatMap fun (key, v) => (key.map Value.handles).getD [] ++ v.handles
      let held' := Handle.array a :: pending ++ held
      let spot ← entrySpot a key
      let copy ← copyValue held' v
      Run.alter (·.put spot copy)
      fillArray held a rest

def arrayOf (held : List Handle) (entries : List (Option Value × Value)) : Run Value := do
  let a ← Run.update (·.newArray .empty)
  fillArray held a entries
  pure (.array a)

/-- Copies of the values of an array, in order. -/
def copiedValues (held : List Handle) : List SlotId → Run (List Value)
  | [] => pure []
  | s :: rest => do
      let v ← copyValue held (← Run.inspect (·.read s))
      let more ← copiedValues (v.handles ++ held) rest
      pure (v :: more)

def appendAll (a : ArrayId) : List Value → Run Unit
  | [] => pure ()
  | v :: rest => do
      Run.alter (·.put (.append a) v)
      appendAll a rest

/-- An array of the given values, as they are, under the keys 0, 1, 2, … -/
def listOf (values : List Value) : Run Value := do
  let a ← Run.update (·.newArray .empty)
  appendAll a values
  pure (.array a)

/-! Scopes -/

namespace Scope

/-- Declares the names that are not declared yet, holding null. -/
def define (scope : Scope) (st : Store) : List String → Scope × Store
  | [] => (scope, st)
  | name :: rest =>
      if Assoc.contains scope name then define scope st rest
      else
        let (s, st) := st.newSlot .null
        define (scope ++ [(name, s)]) st rest

end Scope

def currentScope : Run Scope := do
  match (← get).scopes with
  | scope :: _ => pure scope
  | [] => .fault .noScope

def setScope (scope : Scope) : Run Unit :=
  modify fun m => { m with scopes := scope :: m.scopes.tail }

def defineVariables (names : List String) : Run Unit := do
  let scope ← currentScope
  let scope ← Run.update fun st => scope.define st names
  setScope scope

/-- The slot of a variable, declared if need be. -/
def defineVariable (name : String) : Run SlotId := do
  defineVariables [name]
  match Assoc.get? (← currentScope) name with
  | some s => pure s
  | none => .fault .noScope

/-- Declares a variable and assigns a copy of a value to it. -/
def bindVariable (held : List Handle) (name : String) (v : Value) : Run Unit := do
  let s ← defineVariable name
  let copy ← copyValue held v
  Run.alter (·.put (.slot s) copy)

/-- Runs with a new scope, which goes again however the run ends. -/
def inNewScope {α : Type} (body : Run α) : Run α := do
  modify fun m => { m with scopes := [] :: m.scopes }
  body.ensure fun m => { m with scopes := m.scopes.tail }

/-! Calls -/

/-- Counts a call that begins; fails at the limit. -/
def enterCall : Run Unit := do
  let m ← get
  if m.callLimit ≤ m.callDepth then Run.fail (.nestingLevel m.callLimit)
  else modify fun m => { m with callDepth := m.callDepth + 1 }

/-- Runs a call with loops of its own, and takes up those of the caller again however it ends. -/
def inCall {α : Type} (loopSlots : Nat) (body : Run α) : Run α := do
  enterCall
  let outer ← modifyGet fun m => (m.loops, { m with loops := List.replicate loopSlots none })
  body.ensure fun m => { m.leaveCall with loops := outer }

end TreeScript
