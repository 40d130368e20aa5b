import TreeScript.Json.Basic
import TreeScript.Store.Coercion

set_option autoImplicit false

/- Values taken out of the store: snapshots, their JSON form, and dumps. -/
namespace TreeScript

/-- A value with everything it holds. -/
inductive Snapshot where
  | null
  | boolean (b : Bool)
  | integer (n : Int64)
  | float (x : Float)
  | string (s : String)
  | array (entries : List (Key × Snapshot))
  | object (className : String) (properties : List (String × Snapshot))

namespace Snapshot

/-- Keys of arrays become names; an object has its class beside its properties. -/
def toJson : Snapshot → Json
  | .null => .null
  | .boolean b => .bool b
  | .integer n => Json.ofInt64 n
  | .float x => .number (.real x)
  | .string s => .string s
  | .array entries => .object (entriesToJson entries)
  | .object className properties =>
      .object [("class", .string className), ("properties", .object (propertiesToJson properties))]
where
  entriesToJson : List (Key × Snapshot) → List (String × Json)
    | [] => []
    | (key, v) :: rest => (key.text, toJson v) :: entriesToJson rest
  propertiesToJson : List (String × Snapshot) → List (String × Json)
    | [] => []
    | (name, v) :: rest => (name, toJson v) :: propertiesToJson rest

end Snapshot

namespace Store

/-- The snapshot of a value; what lies deeper than the given number of levels is null. -/
def snapshotWithin (st : Store) : Nat → Value → Snapshot
  | 0, _ => .null
  | depth + 1, v =>
      match v with
      | .null => .null
      | .boolean b => .boolean b
      | .integer n => .integer n
      | .float x => .float x
      | .string s => .string s
      | .array a =>
          .array ((st.array a).elements.map fun (key, s) =>
            (key, snapshotWithin st depth (st.read s)))
      | .object o =>
          .object (st.className o) ((st.object o).properties.map fun (name, s) =>
            (name, snapshotWithin st depth (st.read s)))

/-- The levels of a snapshot: a value, and 64 levels of containers around others. -/
def snapshotLevels : Nat := 65

def snapshot (st : Store) (v : Value) : Snapshot := st.snapshotWithin snapshotLevels v

/-- The first depth at which a dump shows no values. -/
def dumpLimit : Nat := 64

def indent (depth : Nat) : String := String.ofList (List.replicate (2 * depth) ' ')

def dumpKey : Key → String
  | .integer n => "[" ++ toString n.toInt ++ "]=>\n"
  | .string s => "[\"" ++ s ++ "\"]=>\n"

/-- The dump of a value at a depth, with so many further levels. -/
def dumpWithin (st : Store) : Nat → Nat → Value → String
  | levels, depth, v =>
      let entry (key : Key) (s : SlotId) : String :=
        indent (depth + 1) ++ dumpKey key ++
          match levels with
          | 0 => indent (depth + 1) ++ "*RECURSION*\n"
          | levels + 1 => dumpWithin st levels (depth + 1) (st.read s)
      let line (text : String) : String := indent depth ++ text ++ "\n"
      match v with
      | .null => line "NULL"
      | .boolean b => line ("bool(" ++ (if b then "true" else "false") ++ ")")
      | .integer n => line ("int(" ++ toString n.toInt ++ ")")
      | .float x => line ("float(" ++ floatText x ++ ")")
      | .string s => line ("string(" ++ toString s.utf8ByteSize ++ ") \"" ++ s ++ "\"")
      | .array a =>
          let elements := (st.array a).elements
          line ("array(" ++ toString elements.length ++ ") \x7b") ++
            String.join (elements.map fun (key, s) => entry key s) ++ line "\x7d"
      | .object o =>
          let properties := (st.object o).properties
          line ("object(" ++ st.className o ++ ") (" ++ toString properties.length ++ ") \x7b") ++
            String.join (properties.map fun (name, s) => entry (.string name) s) ++ line "\x7d"

/-- The dump of a value, indented by `depth` levels. -/
def dump (st : Store) (depth : Nat) (v : Value) : String :=
  st.dumpWithin (dumpLimit - 1 - depth) depth v

end Store
end TreeScript
