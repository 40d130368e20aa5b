import TreeScript.Namespace
import TreeScript.Store.Sharing

set_option autoImplicit false

/- The state of a running program. -/
namespace TreeScript

/-- The variables of one call, or of the program, each bound to a slot. -/
abbrev Scope := List (String × SlotId)

/-- A stream that takes writes, latest first, and may accept only so many more. -/
structure Output where
  writes : List String
  remaining : Option Nat

namespace Output

def unlimited : Output := ⟨[], none⟩

/-- `none` when the stream accepts no more writes. -/
def write (o : Output) (text : String) : Option Output :=
  match o.remaining with
  | none => some { o with writes := text :: o.writes }
  | some 0 => none
  | some (n + 1) => some ⟨text :: o.writes, some n⟩

def text (o : Output) : String := String.join o.writes.reverse

end Output

/-- A loop that is under way: the array it walks, how far, and where it is. -/
structure Loop where
  array : ArrayId
  length : Nat
  position : Nat

structure Machine where
  store : Store
  /-- Innermost first. -/
  scopes : List Scope
  names : Namespace
  stdin : List String
  stdout : Output
  callDepth : Nat
  callLimit : Nat
  /-- The loops of the current call, by their numbers. -/
  loops : List (Option Loop)

namespace Machine

/-- What the variables in reach and the classes by name hold. -/
def roots (m : Machine) : List Handle :=
  m.scopes.flatMap (fun scope => scope.map fun (_, s) => .slot s) ++
    m.names.classes.map fun (_, c) => .classData c

def leaveCall (m : Machine) : Machine := { m with callDepth := m.callDepth - 1 }

end Machine
end TreeScript
