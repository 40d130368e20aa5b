import TreeScript.Assoc
import TreeScript.Code.Basic
import TreeScript.Value.Basic

set_option autoImplicit false

/- The store: slots that hold values, and the arrays, objects and classes that hold slots and
values. Entries are added and changed, never removed. -/
namespace TreeScript

/-- Functions and methods that come with the language. -/
inductive Builtin where
  | strlen | strtoupper | strtolower | strRepeat | strrev
  | count | arrayKeys | arrayValues | inArray | implode
  | gettype | isArray | isInt | isString | isNull | intval | strval
  | print | varDump | readline
  | exceptionConstruct | exceptionGetMessage
  deriving Repr, DecidableEq

inductive Callable where
  | user (function : Code.Function Code.Stmt)
  | builtin (b : Builtin)

/-- An array: its elements in order, each in a slot of its own, the integer key of the next
append, and the internal pointer. -/
structure ArrayData where
  elements : List (Key × SlotId)
  nextIndex : Int64
  pointer : Nat

structure ObjectData where
  classId : ClassId
  properties : List (String × SlotId)

/-- A class: property defaults, and methods under their lowercase names. -/
structure ClassData where
  name : String
  properties : List (String × Value)
  methods : List (String × Callable)

/-- Where a value goes: into a slot, or to an element or property that may not be there yet. -/
inductive Spot where
  | slot (s : SlotId)
  | element (a : ArrayId) (key : Key)
  /-- A new element under the next index. -/
  | append (a : ArrayId)
  | property (o : ObjectId) (name : String)

structure Store where
  slots : Array Value
  arrays : Array ArrayData
  objects : Array ObjectData
  classes : Array ClassData

namespace ArrayData

def empty : ArrayData := ⟨[], 0, 0⟩

def size (a : ArrayData) : Nat := a.elements.length

def slot? (a : ArrayData) (key : Key) : Option SlotId := Assoc.get? a.elements key

def entryAt? (a : ArrayData) (position : Nat) : Option (Key × SlotId) := a.elements[position]?

/-- Keeps the next index above every integer key, up to the greatest word. -/
def trackKey (a : ArrayData) : Key → ArrayData
  | .integer n =>
      if a.nextIndex ≤ n then { a with nextIndex := Int64.ofIntClamp (n.toInt + 1) } else a
  | .string _ => a

/-- Puts a slot under a key. -/
def bind (a : ArrayData) (key : Key) (slot : SlotId) : ArrayData :=
  { a.trackKey key with elements := Assoc.set a.elements key slot }

/-- Moves the pointer one element on, at most past the last. -/
def advance (a : ArrayData) : ArrayData :=
  if a.pointer < a.size then { a with pointer := a.pointer + 1 } else a

def reset (a : ArrayData) : ArrayData := { a with pointer := 0 }

end ArrayData

namespace Store

def empty : Store := ⟨#[], #[], #[], #[]⟩

instance : Inhabited Store := ⟨empty⟩

def read (st : Store) (s : SlotId) : Value := st.slots[s.index]?.getD .null

def write (st : Store) (s : SlotId) (v : Value) : Store :=
  { st with slots := st.slots.setIfInBounds s.index v }

def newSlot (st : Store) (v : Value) : SlotId × Store :=
  (⟨st.slots.size⟩, { st with slots := st.slots.push v })

def array (st : Store) (a : ArrayId) : ArrayData := st.arrays[a.index]?.getD .empty

def setArray (st : Store) (a : ArrayId) (data : ArrayData) : Store :=
  { st with arrays := st.arrays.setIfInBounds a.index data }

def newArray (st : Store) (data : ArrayData) : ArrayId × Store :=
  (⟨st.arrays.size⟩, { st with arrays := st.arrays.push data })

def object (st : Store) (o : ObjectId) : ObjectData := st.objects[o.index]?.getD ⟨⟨0⟩, []⟩

def setObject (st : Store) (o : ObjectId) (data : ObjectData) : Store :=
  { st with objects := st.objects.setIfInBounds o.index data }

def newObject (st : Store) (data : ObjectData) : ObjectId × Store :=
  (⟨st.objects.size⟩, { st with objects := st.objects.push data })

def classData (st : Store) (c : ClassId) : ClassData := st.classes[c.index]?.getD ⟨"", [], []⟩

def newClass (st : Store) (data : ClassData) : ClassId × Store :=
  (⟨st.classes.size⟩, { st with classes := st.classes.push data })

def className (st : Store) (o : ObjectId) : String := (st.classData (st.object o).classId).name

/-! What each change shows to a later read -/

@[simp] theorem read_write_self (st : Store) (s : SlotId) (v : Value)
    (inside : s.index < st.slots.size) : (st.write s v).read s = v := by
  simp [read, write, inside]

@[simp] theorem read_write_of_ne (st : Store) (s t : SlotId) (v : Value) (different : t ≠ s) :
    (st.write s v).read t = st.read t := by
  have apart : s.index ≠ t.index := fun same => different (by cases s; cases t; simp_all)
  simp [read, write, apart]

@[simp] theorem read_newSlot_self (st : Store) (v : Value) :
    (st.newSlot v).2.read (st.newSlot v).1 = v := by
  simp [read, newSlot]

@[simp] theorem read_newSlot_of_lt (st : Store) (v : Value) (s : SlotId)
    (inside : s.index < st.slots.size) : (st.newSlot v).2.read s = st.read s := by
  simp [read, newSlot, Array.getElem?_push, Nat.ne_of_lt inside]

@[simp] theorem array_setArray_self (st : Store) (a : ArrayId) (data : ArrayData)
    (inside : a.index < st.arrays.size) : (st.setArray a data).array a = data := by
  simp [array, setArray, inside]

@[simp] theorem array_setArray_of_ne (st : Store) (a b : ArrayId) (data : ArrayData)
    (different : b ≠ a) : (st.setArray a data).array b = st.array b := by
  have apart : a.index ≠ b.index := fun same => different (by cases a; cases b; simp_all)
  simp [array, setArray, apart]

@[simp] theorem array_newArray_self (st : Store) (data : ArrayData) :
    (st.newArray data).2.array (st.newArray data).1 = data := by
  simp [array, newArray]

@[simp] theorem array_newArray_of_lt (st : Store) (data : ArrayData) (a : ArrayId)
    (inside : a.index < st.arrays.size) : (st.newArray data).2.array a = st.array a := by
  simp [array, newArray, Array.getElem?_push, Nat.ne_of_lt inside]

@[simp] theorem array_write (st : Store) (s : SlotId) (v : Value) (a : ArrayId) :
    (st.write s v).array a = st.array a := rfl

@[simp] theorem array_newSlot (st : Store) (v : Value) (a : ArrayId) :
    (st.newSlot v).2.array a = st.array a := rfl

@[simp] theorem read_setArray (st : Store) (a : ArrayId) (data : ArrayData) (s : SlotId) :
    (st.setArray a data).read s = st.read s := rfl

@[simp] theorem read_newArray (st : Store) (data : ArrayData) (s : SlotId) :
    (st.newArray data).2.read s = st.read s := rfl

/-! Arrays -/

def element? (st : Store) (a : ArrayId) (key : Key) : Option Value :=
  ((st.array a).slot? key).map st.read

def bindElement (st : Store) (a : ArrayId) (key : Key) (s : SlotId) : Store :=
  st.setArray a ((st.array a).bind key s)

/-- The slot of an element; an absent element is added, holding null. -/
def elementSlot (st : Store) (a : ArrayId) (key : Key) : SlotId × Store :=
  match (st.array a).slot? key with
  | some s => (s, st.setArray a ((st.array a).trackKey key))
  | none =>
      let (s, st) := st.newSlot .null
      (s, st.bindElement a key s)

/-- Writes through the slot of an element; an absent element is added. -/
def insertElement (st : Store) (a : ArrayId) (key : Key) (v : Value) : Store :=
  match (st.array a).slot? key with
  | some s => st.write s v
  | none =>
      let (s, st) := st.newSlot v
      st.bindElement a key s

/-- Appends a slot under the next index. -/
def pushSlot (st : Store) (a : ArrayId) (s : SlotId) : Key × Store :=
  let key := Key.integer (st.array a).nextIndex
  (key, st.bindElement a key s)

def push (st : Store) (a : ArrayId) (v : Value) : Key × Store :=
  let (s, st) := st.newSlot v
  st.pushSlot a s

/-! Objects -/

def property? (st : Store) (o : ObjectId) (name : String) : Option Value :=
  (Assoc.get? (st.object o).properties name).map st.read

def bindProperty (st : Store) (o : ObjectId) (name : String) (s : SlotId) : Store :=
  let data := st.object o
  st.setObject o { data with properties := Assoc.set data.properties name s }

/-- The slot of a property; an absent property is added, holding null. -/
def propertySlot (st : Store) (o : ObjectId) (name : String) : SlotId × Store :=
  match Assoc.get? (st.object o).properties name with
  | some s => (s, st)
  | none =>
      let (s, st) := st.newSlot .null
      (s, st.bindProperty o name s)

/-- Writes through the slot of a property; an absent property is added. -/
def setProperty (st : Store) (o : ObjectId) (name : String) (v : Value) : Store :=
  match Assoc.get? (st.object o).properties name with
  | some s => st.write s v
  | none =>
      let (s, st) := st.newSlot v
      st.bindProperty o name s

/-! Spots -/

/-- Puts a value, already copied, where it goes. -/
def put (st : Store) : Spot → Value → Store
  | .slot s, v => st.write s v
  | .element a key, v => st.insertElement a key v
  | .append a, v => (st.push a v).2
  | .property o name, v => st.setProperty o name v

/-- The slot at a spot, added when absent. -/
def slotAt (st : Store) : Spot → SlotId × Store
  | .slot s => (s, st)
  | .element a key => st.elementSlot a key
  | .append a =>
      let (s, st) := st.newSlot .null
      (s, (st.pushSlot a s).2)
  | .property o name => st.propertySlot o name

/-- Puts a slot in the place of the one at a spot; a slot on its own has no place. -/
def bindAt (st : Store) : Spot → SlotId → Store
  | .slot _, _ => st
  | .element a key, s => st.bindElement a key s
  | .append a, s => (st.pushSlot a s).2
  | .property o name, s => st.bindProperty o name s

end Store
end TreeScript
