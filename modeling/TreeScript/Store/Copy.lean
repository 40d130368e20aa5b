import TreeScript.Store.Sharing

set_option autoImplicit false

/- Copies as assignments make them. An array is copied element by element into new slots, but an
element whose slot is shared keeps that slot. Everything else is handed on as it is. -/
namespace TreeScript.Store

/-- Copies elements one after the other, given how values are copied. -/
def copyElements (shared : SlotId → Bool) (copy : Value → Store → Option (Value × Store)) :
    List (Key × SlotId) → Store → Option (List (Key × SlotId) × Store)
  | [], st => some ([], st)
  | (key, s) :: rest, st => do
      let (s, st) ←
        if shared s then some (s, st)
        else (copy (st.read s) st).map fun (v, st) => st.newSlot v
      let (more, st) ← copyElements shared copy rest st
      some ((key, s) :: more, st)

/-- Copies a value within the given depth; `none` when that is exceeded. -/
def copyWithin (shared : SlotId → Bool) : Nat → Value → Store → Option (Value × Store)
  | 0, .array _, _ => none
  | depth + 1, .array a, st => do
      let data := st.array a
      let (elements, st) ← copyElements shared (copyWithin shared depth) data.elements st
      let (copy, st) := st.newArray { data with elements }
      some (.array copy, st)
  | _, v, st => some (v, st)

/-- The copy of a value. No copy that ends nests deeper than there are arrays. -/
def copy (st : Store) (roots : List Handle) (v : Value) : Option (Value × Store) :=
  match v with
  | .array _ =>
      let t := st.tally roots
      copyWithin (fun s => 1 < t.count (.slot s)) (st.arrays.size + 1) v st
  | _ => some (v, st)

end TreeScript.Store
