import TreeScript.Store.Basic

set_option autoImplicit false

/- Who holds what. A slot is held by array elements, object properties, variables and pending
evaluations; it is shared when more than one of them, all still alive, holds it. What nothing
alive holds is released, and releases in turn what it held; a cycle keeps itself alive. -/
namespace TreeScript

/-- Something in the store that can be held. -/
inductive Handle where
  | slot (s : SlotId)
  | array (a : ArrayId)
  | object (o : ObjectId)
  | classData (c : ClassId)
  deriving Repr, DecidableEq

/-- What a value holds. -/
def Value.handles : Value → List Handle
  | .array a => [.array a]
  | .object o => [.object o]
  | _ => []

def ArrayData.handles (a : ArrayData) : List Handle := a.elements.map fun (_, s) => .slot s

def ObjectData.handles (o : ObjectData) : List Handle :=
  .classData o.classId :: o.properties.map fun (_, s) => .slot s

def ClassData.handles (c : ClassData) : List Handle := c.properties.flatMap fun (_, v) => v.handles

/-- The number of holders of everything in a store. -/
structure Tally where
  slots : Array Nat
  arrays : Array Nat
  objects : Array Nat
  classes : Array Nat

namespace Tally

/-- Nothing is held. -/
def zero (st : Store) : Tally :=
  ⟨.replicate st.slots.size 0, .replicate st.arrays.size 0, .replicate st.objects.size 0,
    .replicate st.classes.size 0⟩

def count (t : Tally) : Handle → Nat
  | .slot s => t.slots[s.index]?.getD 0
  | .array a => t.arrays[a.index]?.getD 0
  | .object o => t.objects[o.index]?.getD 0
  | .classData c => t.classes[c.index]?.getD 0

def modify (t : Tally) (f : Nat → Nat) : Handle → Tally
  | .slot s => { t with slots := t.slots.modify s.index f }
  | .array a => { t with arrays := t.arrays.modify a.index f }
  | .object o => { t with objects := t.objects.modify o.index f }
  | .classData c => { t with classes := t.classes.modify c.index f }

def addAll (t : Tally) (handles : List Handle) : Tally := handles.foldl (modify · (· + 1)) t

/-- Takes away one holder of each handle, and gives those that had no other. -/
def dropAll (t : Tally) : List Handle → List Handle × Tally
  | [] => ([], t)
  | h :: rest =>
      if t.count h = 1 then
        let (freed, t) := (t.modify (· - 1) h).dropAll rest
        (h :: freed, t)
      else (t.modify (· - 1) h).dropAll rest

end Tally

namespace Store

/-- What one thing in the store holds. -/
def holds (st : Store) : Handle → List Handle
  | .slot s => (st.read s).handles
  | .array a => (st.array a).handles
  | .object o => (st.object o).handles
  | .classData c => (st.classData c).handles

/-- Everything in the store. -/
def contents (st : Store) : List Handle :=
  (List.range st.slots.size).map (fun i => .slot ⟨i⟩) ++
    (List.range st.arrays.size).map (fun i => .array ⟨i⟩) ++
    (List.range st.objects.size).map (fun i => .object ⟨i⟩) ++
    (List.range st.classes.size).map (fun i => .classData ⟨i⟩)

/-- The holders of everything, released or not, and the roots. -/
def everyHolder (st : Store) (roots : List Handle) : Tally :=
  st.contents.foldl (fun t h => t.addAll (st.holds h)) ((Tally.zero st).addAll roots)

/-- Takes back what the unheld things on the list hold, and what that leaves unheld in turn. -/
def release (st : Store) : Nat → List Handle → Tally → Tally
  | n + 1, h :: unheld, t =>
      let (freed, t) := t.dropAll (st.holds h)
      st.release n (freed ++ unheld) t
  | _, _, t => t

/-- The number of living holders of everything. Each thing is released at most once. -/
def tally (st : Store) (roots : List Handle) : Tally :=
  let t := st.everyHolder roots
  st.release st.contents.length (st.contents.filter (t.count · = 0)) t

/-- Whether a slot has more than one living holder. -/
def isShared (st : Store) (roots : List Handle) (s : SlotId) : Bool :=
  1 < (st.tally roots).count (.slot s)

end Store
end TreeScript
