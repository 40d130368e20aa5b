import TreeScript.Machine

set_option autoImplicit false

/- Locations: what a program reads from, assigns to and binds by reference. -/
namespace TreeScript

inductive Location where
  /-- A variable declared in the current scope. -/
  | variable (name : String)
  /-- A slot on its own, as an undeclared variable or a hole in a list has it. -/
  | detached (s : SlotId)
  /-- An element of an array or a property of an object; without a key a new element. -/
  | element (container : Value) (key : Option Key)
  | list (elements : List Location)

namespace Location

instance : Inhabited Location := ⟨.list []⟩

/-- What a location holds while it is in use. -/
def handles : Location → List Handle
  | .variable _ => []
  | .detached s => [.slot s]
  | .element container _ => container.handles
  | .list elements => handlesOfAll elements
where
  handlesOfAll : List Location → List Handle
    | [] => []
    | l :: rest => handles l ++ handlesOfAll rest

/-- The location of a variable of the current scope. -/
def ofVariable (name : String) : Run Location := do
  if Assoc.contains (← currentScope) name then pure (.variable name)
  else pure (.detached (← Run.update (·.newSlot .null)))

/-- The slot of a declared variable. -/
def variableSlot (name : String) : Run SlotId := do
  match Assoc.get? (← currentScope) name with
  | some s => pure s
  | none => Run.update (·.newSlot .null)

/-- The character at a byte of a text, counted from the end when negative. A byte that is no
character of its own shows as the replacement character. -/
def textOffset (text : String) : Key → Run Value
  | .string _ => Run.fail .illegalOffset
  | .integer offset =>
      let bytes := text.toUTF8
      let position := if offset < 0 then bytes.size + offset.toInt else offset.toInt
      if 0 ≤ position then
        match bytes.toList[position.toNat]? with
        | some b =>
            pure (.string (if b < 128 then String.singleton (Char.ofNat b.toNat) else "\uFFFD"))
        | none => pure (.string "")
      else pure (.string "")

/-- The value of an element; what is absent reads as null. -/
def readElement (container : Value) (key : Key) : Run Value := do
  match container with
  | .array a => pure ((← Run.inspect (·.element? a key)).getD .null)
  | .object o => pure ((← Run.inspect (·.property? o key.text)).getD .null)
  | .string text => textOffset text key
  | _ => pure .null

/-- Where an element is, or goes. -/
def spotOf (container : Value) (key : Option Key) : Run Spot :=
  match container, key with
  | .array a, some key => pure (.element a key)
  | .array a, none => pure (.append a)
  | .object o, some key => pure (.property o key.text)
  | .object _, none => Run.fail .illegalOffset
  | _, _ => Run.fail .scalarAsArray

/-- The value of an element that is there. -/
def presentElement (container : Value) : Option Key → Run (Option Value)
  | none => pure none
  | some key =>
      match container with
      | .array a => Run.inspect (·.element? a key)
      | .object o => Run.inspect (·.property? o key.text)
      | _ => pure none

/-- Puts an empty array where a slot holds null. -/
def implyIn (s : SlotId) : Run Value := do
  match ← Run.inspect (·.read s) with
  | .null =>
      let a ← Run.update (·.newArray .empty)
      Run.alter (·.put (.slot s) (.array a))
      pure (.array a)
  | v => pure v

/-- The value now at a location. -/
def get : Location → Run Value
  | .variable name => do
      let s ← variableSlot name
      Run.inspect (·.read s)
  | .detached s => Run.inspect (·.read s)
  | .element _ none => Run.fail .emptyIndexRead
  | .element container (some key) => readElement container key
  | .list _ => Run.fail .invalidListUsage

/-- The slot at a location, added when absent. -/
def slot : Location → Run SlotId
  | .variable name => variableSlot name
  | .detached s => pure s
  | .element container key => do
      let spot ← spotOf container key
      Run.update (·.slotAt spot)
  | .list _ => Run.fail .invalidListUsage

/-- Puts a slot in the place of the one at a location. A detached slot has no place. -/
def rebind (s : SlotId) : Location → Run Unit
  | .variable name => do setScope (Assoc.set (← currentScope) name s)
  | .detached _ => pure ()
  | .element container key => do
      let spot ← spotOf container key
      Run.alter (·.bindAt spot s)
  | .list _ => Run.fail .invalidListUsage

/-- Binds a location to a slot and gives the value in it. -/
def bind (l : Location) (s : SlotId) : Run Value := do
  let v ← Run.inspect (·.read s)
  l.rebind s
  pure v

/-- The value at a location, where a null has first become an empty array. -/
def imply : Location → Run Value
  | .variable name => do implyIn (← variableSlot name)
  | .detached s => implyIn s
  | .element container key => do
      match ← presentElement container key with
      | some .null | none =>
          let spot ← spotOf container key
          implyIn (← Run.update (·.slotAt spot))
      | some v => pure v
  | .list _ => Run.fail .invalidListUsage

/-- What a list takes from a value at a position. -/
def itemAt (v : Value) (position : Nat) : Run Value := do
  match v with
  | .array a =>
      pure ((← Run.inspect (·.element? a (.integer (Int64.ofNat position)))).getD .null)
  | _ => pure .null

mutual
/-- Assigns a copy of a value and gives that copy. A list assigns the items of an array, one
location after the other, and gives the array itself. -/
def set (held : List Handle) : Location → Value → Run Value
  | .variable name, v => do
      let copy ← copyValue held v
      let s ← variableSlot name
      Run.alter (·.put (.slot s) copy)
      pure copy
  | .detached s, v => do
      let copy ← copyValue (.slot s :: held) v
      Run.alter (·.put (.slot s) copy)
      pure copy
  | .element container key, v => do
      let copy ← copyValue (container.handles ++ held) v
      let spot ← spotOf container key
      Run.alter (·.put spot copy)
      pure copy
  | .list elements, v => do
      setAll (v.handles ++ handles.handlesOfAll elements ++ held) v 0 elements
      pure v

def setAll (held : List Handle) (v : Value) (position : Nat) : List Location → Run Unit
  | [] => pure ()
  | l :: rest => do
      let item ← itemAt v position
      let _ ← set held l item
      setAll held v (position + 1) rest
end

end Location
end TreeScript
